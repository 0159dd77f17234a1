import Lsmkv.FileFailures
import Lsmkv.Lib.EarlyExit
import Lsmkv.Ownership

/-!
# Compactions that fail

`DoCompactionWork` and `BuildWhenCompaction` (`src/levelcache.cpp`) with every step that can fail:
the creation of an output table and of its value log, the decoding and the reading of a value, the
append to the value log, `Add`, `Finish`, `Sync` and `Close`.  The file layer is a parameter, as in
`FileFailures`, and so is the number of failures that no status tells of: `Close` of a
`UringWritableFile` returns OK, its `Sync` drops the status of `Flush`, and `Flush` that of
`SubmitIO` (`src/file.cpp`).  Values of the inputs are the bytes that the tables hold.

`Work` has the local variables of `BuildWhenCompaction`, and the steps that it has made, each with
how it ended.  The function stops with a status, or it crashes: an assertion fails, or a null
pointer is used.  When it returns early its destructors still run, and `~TableBuilder` finishes a
builder that was not finished; so a builder that was made on the null `file` of a failed creation
crashes in any case (`Work.Null`).

`handles_iff` says which failing compactions are handled: the status is not OK, the levels and the
queue of deletions stay, no file of a table is opened for writing, and an output that could not be
opened is left alone.
-/

namespace Lsmkv.Fallible

open ByteCode Files EarlyExit

/-- The files of a compaction: those of the builders, the creation of a table file, and
`VLogReader::Read`, for which a failed assertion is a fault; `lost` counts the failures of
operations on files that were answered OK. -/
structure CompactionFiles (σ : Type) extends FileLayer σ where
  createTable : ℕ → σ → Option ℕ × σ
  readValue : VLogEntryInfo → σ → Outcome Bytes × σ
  lost : σ → ℕ

/-! ## The variables and the steps -/

/-- The steps that can fail.  Files are created under a number; `unreported` stands for what was
lost on the files of an output, since it was last asked. -/
inductive WorkStep
  | createTable (number : ℕ)
  | openVlog (number : ℕ)
  | decode
  | readValue
  | appendVlog
  | add
  | finish
  | syncTable
  | closeTable
  | closeVlog
  | unreported
  deriving DecidableEq

/-- The steps that create a file. -/
def WorkStep.opens : WorkStep → Bool
  | .createTable _ | .openVlog _ => true
  | _ => false

/-- The steps whose failure nobody learns: `Close` of a value log returns OK, too. -/
def WorkStep.silent : WorkStep → Bool
  | .closeVlog | .unreported => true
  | _ => false

/-- Steps, each with how it ended. -/
abbrev Steps := List (WorkStep × Outcome Unit)

/-- The variables of `BuildWhenCompaction` and the counters of `Version`; `smallest` and `out` are
`meta` and what the builder was given, and `steps` records the steps. -/
structure Work (σ : Type) where
  fileno : ℕ
  lastVlogFileNo : ℕ
  smallest : Option InternalKey
  out : List (Entry Bytes)
  newFiles : List (SSTFile Bytes)
  file : Option ℕ
  builder : Option TableBuilder
  vlogBuilder : Option VLogBuilder
  world : σ
  steps : Steps

/-- How the function is left before its end. -/
inductive Stop
  | returns (c : Code)
  | crash

/-- A part of `BuildWhenCompaction`. -/
abbrev WorkM (σ : Type) := EStateM Stop (Work σ)

/-- The status of an operation of the file layer. -/
def status (ok : Bool) : Outcome Unit := if ok then .ok () else .fail .kIOError

section Operations

variable {σ α : Type}

/-- `if (!s.ok()) return s;`, with the value of a success. -/
def check (o : Outcome α) : WorkM σ α :=
  match o with
  | .ok a => pure a
  | .fail c => throw (.returns c)
  | .fault => throw .crash

/-- One more step. -/
def Work.did (w : Work σ) (s : WorkStep) (o : Outcome Unit) : Work σ :=
  { w with steps := w.steps ++ [(s, o)] }

/-- A step, and how it ended. -/
def note (s : WorkStep) (o : Outcome Unit) : WorkM σ Unit := modify fun w => w.did s o

/-- A step whose status is checked. -/
def perform (s : WorkStep) (o : Outcome α) : WorkM σ α := do
  note s (o >>= fun _ => .ok ())
  check o

variable (fs : CompactionFiles σ) (crc32c : Bytes → ℕ)

/-- The destructor of `builder`. -/
def destroyBuilder (builder : Option TableBuilder) (w : σ) : Outcome σ :=
  match builder with
  | none => .ok w
  | some t => do
      let destroyed ← t.destroy fs.toFileLayer crc32c w
      .ok destroyed.2

/-- The destructor of `vlog_builder`, which closes it. -/
def destroyVlogBuilder (vlogBuilder : Option VLogBuilder) (w : σ) : Outcome σ :=
  match vlogBuilder with
  | none => .ok w
  | some b => do
      let closed ← b.close fs.toFileLayer crc32c w
      .ok closed.2.2

/-- The destructor of `file`, which closes it. -/
def destroyFile (file : Option ℕ) (w : σ) : σ :=
  match file with
  | none => w
  | some h => (fs.close h w).2

/-! ## The outputs -/

/-- `NewUringWritableFile`, which leaves `file` null when it fails, and the new `TableBuilder`; the
builder that was there is destroyed. -/
def createOutput : WorkM σ Unit := do
  let w ← get
  let created := fs.createTable w.fileno w.world
  note (.createTable w.fileno) (status created.1.isSome)
  let world ← check (destroyBuilder fs crc32c w.builder created.2)
  modify fun w => { w with file := created.1, builder := some (.new created.1), world := world }

/-- `NewVLogFileNumber` and `Open`; a number that was not used is taken back. -/
def openVlog : WorkM σ Unit := do
  let w ← get
  let opened := (w.vlogBuilder.getD .new).openFile fs.toFileLayer w.lastVlogFileNo w.world
  set { w with
    vlogBuilder := some opened.2.1
    world := opened.2.2
    lastVlogFileNo := if opened.1 then w.lastVlogFileNo + 1 else w.lastVlogFileNo }
  perform (.openVlog w.lastVlogFileNo) (status opened.1)

/-- `if (file == nullptr)`: with a value log the status of the creation is overwritten by that of
`Open`. -/
def openOutput (buildVlog : Bool) : WorkM σ Unit := do
  createOutput fs crc32c
  let w ← get
  if buildVlog then openVlog fs else check (status w.file.isSome)

/-- An output is opened for the first entry. -/
def openIfNull (buildVlog : Bool) : WorkM σ Unit := do
  let w ← get
  if w.file.isNone then openOutput fs crc32c buildVlog else pure ()

/-- The value of an entry goes from its log into the log of the output. -/
def moveValue (e : Entry Bytes) : WorkM σ Bytes := do
  let info ← perform .decode (VLogEntryInfo.decode e.value)
  let w ← get
  let read := fs.readValue info w.world
  set { w with world := read.2 }
  let value ← perform .readValue read.1
  let w ← get
  let b ← check (Outcome.ofOption w.vlogBuilder)
  let appended ← check (b.append fs.toFileLayer crc32c e.key value w.world)
  set { w with vlogBuilder := some appended.2.2.1, world := appended.2.2.2 }
  perform .appendVlog (status appended.2.1)
  return appended.1.encode

/-- `builder->Add(key, value)`, and the status of the builder. -/
def addEntry (key : InternalKey) (value : Bytes) : WorkM σ Bool := do
  let w ← get
  let t ← check (Outcome.ofOption w.builder)
  let added ← check (t.add fs.toFileLayer crc32c key value w.world)
  let entry : Entry Bytes := ⟨key, value⟩
  set { w with builder := some added.1, world := added.2, out := w.out ++ [entry] }
  note .add (status added.1.status)
  return added.1.status

/-- The value that is stored for an entry with one. -/
def storedValue (buildVlog : Bool) (e : Entry Bytes) : WorkM σ Bytes :=
  if buildVlog then moveValue fs crc32c e else pure e.value

/-- An entry: behind a tombstone the status of the builder is not asked. -/
def storeEntry (buildVlog : Bool) (e : Entry Bytes) : WorkM σ Unit :=
  if e.key.type ≠ .kTypeValue then do
    let _ ← addEntry fs crc32c e.key VLogEntryInfo.zero.encode
    pure ()
  else do
    let value ← storedValue fs crc32c buildVlog e
    let ok ← addEntry fs crc32c e.key value
    check (status ok)

/-- `SetLastKey` and `Finish`. -/
def finishTable (key : InternalKey) : WorkM σ Unit := do
  let w ← get
  let t ← check (Outcome.ofOption w.builder)
  let t := { t with toTableBuilder := t.toTableBuilder.setLastKey key }
  let finished ← check (t.finish fs.toFileLayer crc32c w.world)
  set { w with builder := some finished.1, world := finished.2 }
  perform .finish (status finished.1.status)

/-- `Sync` and `Close` of the table file. -/
def closeTable : WorkM σ Unit := do
  let w ← get
  let h ← check (Outcome.ofOption w.file)
  let synced := fs.sync h w.world
  set { w with world := synced.2 }
  perform .syncTable (status synced.1)
  let w ← get
  let closed := fs.close h w.world
  set { w with world := closed.2 }
  perform .closeTable (status closed.1)

/-- `Close` of the value log, which always returns OK; the number of the log. -/
def closeVlog : WorkM σ ℕ := do
  let w ← get
  let b ← check (Outcome.ofOption w.vlogBuilder)
  let closed ← check (b.close fs.toFileLayer crc32c w.world)
  set { w with vlogBuilder := some closed.2.1, world := closed.2.2 }
  note .closeVlog (status closed.1)
  return b.fileNo

/-- `builder.reset()`, `file.reset()` and `SetSSTFileNumber`. -/
def resetOutput (number : ℕ) : WorkM σ Unit := do
  let w ← get
  let world ← check (destroyBuilder fs crc32c w.builder w.world)
  set { w with
    builder := none
    file := none
    world := destroyFile fs w.file world
    fileno := number + 1 }

/-- The number of the log of an output, which is closed, or 0. -/
def vlogOfOutput (buildVlog : Bool) : WorkM σ ℕ :=
  if buildVlog then closeVlog fs crc32c else pure 0

/-- The output table is finished and recorded. -/
def closeOutput (buildVlog : Bool) (key : InternalKey) : WorkM σ Unit := do
  let w ← get
  let number := w.fileno
  finishTable fs crc32c key
  closeTable fs
  resetOutput fs crc32c number
  let vlogFileNo ← vlogOfOutput fs crc32c buildVlog
  modify fun w => { w with
    newFiles := w.newFiles ++ [⟨number, w.smallest.getD key, key, vlogFileNo, w.out⟩]
    smallest := none
    out := [] }

/-- A table that has reached its size is finished. -/
def cutIfFull (buildVlog : Bool) (key : InternalKey) : WorkM σ Unit := do
  let w ← get
  let t ← check (Outcome.ofOption w.builder)
  if sstFileSize ≤ t.approximateFileSize then closeOutput fs crc32c buildVlog key else pure ()

/-! ## `BuildWhenCompaction` -/

/-- An entry that has not expired. -/
def keepEntry (buildVlog : Bool) (e : Entry Bytes) : WorkM σ Unit := do
  openIfNull fs crc32c buildVlog
  storeEntry fs crc32c buildVlog e
  cutIfFull fs crc32c buildVlog e.key

/-- A part of the function that works on files, with what was lost in it. -/
def noting (part : WorkM σ Unit) : WorkM σ Unit := do
  let w ← get
  let before := fs.lost w.world
  part
  let w ← get
  note .unreported (status (fs.lost w.world == before))

/-- One round of the loop. -/
def round (buildVlog : Bool) (live : ℕ) (e : Entry Bytes) : WorkM σ Unit := do
  modify fun w => { w with smallest := some (w.smallest.getD e.key) }
  if e.key.seq < live then pure () else noting fs (keepEntry fs crc32c buildVlog e)

/-- The end of a value log builder that is not needed any more. -/
def dropVlogBuilder : WorkM σ Unit := modify fun w => { w with vlogBuilder := none }

/-- The last table, with the last key. -/
def closeLast (buildVlog : Bool) (lastKey : Option InternalKey) : WorkM σ Unit := do
  let w ← get
  if w.builder.isSome then do
    let key ← check (Outcome.ofOption lastKey)
    closeOutput fs crc32c buildVlog key
    if buildVlog then dropVlogBuilder else pure ()
  else pure ()

/-- `assert(vlog_builder->Empty())`. -/
def assertEmpty : WorkM σ Unit := do
  let w ← get
  if (w.vlogBuilder.bind (·.builder)).isSome then throw .crash else pure ()

/-- The loop over the entries in the order of the loser tree, and what follows it. -/
def body (buildVlog : Bool) (live : ℕ) (visited : List (Entry Bytes)) : WorkM σ Unit := do
  visited.forM (round fs crc32c buildVlog live)
  noting fs (closeLast fs crc32c buildVlog (visited.getLast?.map (·.key)))
  assertEmpty

/-- The destructors of `vlog_builder`, `builder` and `file`, in this order. -/
def leave (w : Work σ) : Outcome σ := do
  let world ← destroyVlogBuilder fs crc32c w.vlogBuilder w.world
  let world ← destroyBuilder fs crc32c w.builder world
  .ok (destroyFile fs w.file world)

/-- How a function ends: it returns OK or another status, or it crashes. -/
inductive Exit
  | returned (error : Option Code)
  | crashed
  deriving DecidableEq

/-- A return, with its destructors. -/
def returnFrom (error : Option Code) (w : Work σ) : Exit × Work σ :=
  match leave fs crc32c w with
  | .ok world => (.returned error, { w with world := world })
  | _ => (.crashed, w)

/-- `BuildWhenCompaction(wait_to_merge, new_files, build_vlog)` on the entries that the loser tree
visits. -/
def buildWhenCompaction (buildVlog : Bool) (live : ℕ) (visited : List (Entry Bytes)) (w : Work σ) :
    Exit × Work σ :=
  match body fs crc32c buildVlog live visited w with
  | .ok _ w => returnFrom fs crc32c none w
  | .error (.returns c) w => returnFrom fs crc32c (some c) w
  | .error .crash w => (.crashed, w)

end Operations

/-! ## `DoCompactionWork` -/

/-- What `DoCompactionWork` works on: the levels, the tasks of the executor, the counters of
`Version`, and the files. -/
structure Cache (σ : Type) where
  levels : List (Level Bytes)
  tasks : List (List ℕ × List ℕ)
  fileno : ℕ
  lastVlogFileNo : ℕ
  world : σ

section DoCompactionWork

variable {σ : Type}

/-- The variables at the beginning. -/
def Work.start (c : Cache σ) : Work σ where
  fileno := c.fileno
  lastVlogFileNo := c.lastVlogFileNo
  smallest := none
  out := []
  newFiles := []
  file := none
  builder := none
  vlogBuilder := none
  world := c.world
  steps := []

/-- The counters and the files behind `BuildWhenCompaction`. -/
def Cache.after (c : Cache σ) (w : Work σ) : Cache σ :=
  { c with fileno := w.fileno, lastVlogFileNo := w.lastVlogFileNo, world := w.world }

/-- The end of `DoCompactionWork`: the inputs are removed, their files are handed to the executor
for deletion, and the outputs are added. -/
def Cache.install (c : Cache σ) (info : CompactInfo Bytes) (newFiles : List (SSTFile Bytes)) :
    Cache σ :=
  { c with
    levels := replaceFiles c.levels info newFiles
    tasks := c.tasks ++ [(info.rmSstFiles, info.rmVlogFiles)] }

/-- What follows `BuildWhenCompaction`, with the assertion of `AddFile`. -/
def installIfOk (c : Cache σ) (info : CompactInfo Bytes) (compactVlog : Bool) (built : Exit × Work σ) :
    Exit × Cache σ :=
  match built.1 with
  | .returned none =>
      if compactVlog ∧ 0 ∈ built.2.newFiles.map (·.vlogFileNo) then (.crashed, c.after built.2)
      else (.returned none, (c.after built.2).install info built.2.newFiles)
  | e => (e, c.after built.2)

/-- `DoCompactionWork(compact_info)`, with the steps that it makes. -/
def doCompactionWork (fs : CompactionFiles σ) (crc32c : Bytes → ℕ) (live : ℕ) (c : Cache σ)
    (info : CompactInfo Bytes) : Exit × Cache σ × Steps :=
  let compactVlog := decide (kCompactionVLogLevel ≤ info.level + 1)
  if c.levels.length ≤ info.level then (.returned (some .kCorruption), c, [])
  else if info.level ≠ 0 ∧ compactVlog = false ∧ info.overlapFiles = [] then
    (.returned none,
      { c with levels := moveFiles c.levels info.level info.oldFiles (info.level + 1) }, [])
  else if 0 ∈ info.rmVlogFiles then (.crashed, c, [])
  else
    match LoserTree.visit (fun e => e.key.encode) info.inputs with
    | none => (.crashed, c, [])
    | some visited =>
        let built := buildWhenCompaction fs crc32c compactVlog live visited (.start c)
        let ended := installIfOk c info compactVlog built
        (ended.1, ended.2, built.2.steps)

end DoCompactionWork

/-! ## What the steps say -/

/-- The creation of a table file failed. -/
def CreateFailed (steps : Steps) : Prop := ∃ n o, (.createTable n, o) ∈ steps ∧ o ≠ .ok ()

/-- A step failed an assertion. -/
def Aborted (steps : Steps) : Prop := ∃ s, (s, .fault) ∈ steps

/-- The steps whose failure is a return. -/
structure WorkStep.Reporting (s : WorkStep) : Prop where
  notCreate : ∀ n, s ≠ .createTable n
  heard : s.silent = false

/-- No step failed but `Add`, whose failure the builder remembers, and the silent ones. -/
def Quiet (steps : Steps) : Prop :=
  ∀ p ∈ steps, p.2 = .ok () ∨ (p.1 = .add ∨ p.1.silent = true) ∧ p.2 = .fail .kIOError

/-- No step failed but silent ones. -/
def Clean (steps : Steps) : Prop := ∀ p ∈ steps, p.1.silent = false → p.2 = .ok ()

section Steps

variable {steps : Steps} {s : WorkStep} {o : Outcome Unit}

theorem forall_mem_snoc {P : WorkStep × Outcome Unit → Prop} (h : ∀ p ∈ steps, P p) (last : P (s, o)) :
    ∀ p ∈ steps ++ [(s, o)], P p := by
  intro p hp
  rcases List.mem_append.mp hp with hp | hp
  · exact h p hp
  · rw [List.mem_singleton.mp hp]
    exact last

theorem Quiet.ok (h : Quiet steps) (s : WorkStep) : Quiet (steps ++ [(s, .ok ())]) :=
  forall_mem_snoc h (.inl rfl)

theorem Clean.ok (h : Clean steps) (s : WorkStep) : Clean (steps ++ [(s, .ok ())]) :=
  forall_mem_snoc h fun _ => rfl

theorem Clean.silent (h : Clean steps) (silent : s.silent = true) (o : Outcome Unit) :
    Clean (steps ++ [(s, o)]) :=
  forall_mem_snoc h fun heard => absurd (silent.symm.trans heard) (by simp)

theorem Quiet.status (h : Quiet steps) (hs : s = .add ∨ s.silent = true) (ok : Bool) :
    Quiet (steps ++ [(s, status ok)]) := by
  refine forall_mem_snoc h ?_
  cases ok with
  | true => exact .inl rfl
  | false => exact .inr ⟨hs, rfl⟩

theorem CreateFailed.snoc (h : CreateFailed steps) (s : WorkStep) (o : Outcome Unit) :
    CreateFailed (steps ++ [(s, o)]) := by
  obtain ⟨n, o', hmem, hne⟩ := h
  exact ⟨n, o', List.mem_append_left _ hmem, hne⟩

end Steps

/-! ## Where the function is -/

section Places

variable {σ : Type}

/-- An output table is open; while its builder's status is OK nothing that matters has failed. -/
structure Writing (w : Work σ) (h : ℕ) (t : TableBuilder) : Prop where
  quiet : Quiet w.steps
  file : w.file = some h
  builder : w.builder = some t
  handle : t.handle = some h
  opened : t.closed = false
  clean : t.status = true → Clean w.steps

/-- No value log is open. -/
def VlogIdle (buildVlog : Bool) (w : Work σ) : Prop :=
  ∀ b, w.vlogBuilder = some b → buildVlog = true ∧ b.builder = none ∧ b.handle = none

/-- A value log is open, if there are any. -/
structure VlogOpen (buildVlog : Bool) (w : Work σ) : Prop where
  deep : buildVlog = true → ∃ b h t, w.vlogBuilder = some b ∧ b.IsOpen h t
  shallow : buildVlog = false → w.vlogBuilder = none

/-- The creation of a table file failed, and a builder was made on the null pointer. -/
structure Null (w : Work σ) : Prop where
  failed : CreateFailed w.steps
  file : w.file = none
  builder : ∃ t : TableBuilder, w.builder = some t ∧ t.handle = none ∧ t.status = true ∧
    t.closed = false

/-- No output is open, and nothing that matters has failed. -/
structure Idle (buildVlog : Bool) (w : Work σ) : Prop where
  quiet : Quiet w.steps
  clean : Clean w.steps
  file : w.file = none
  builder : w.builder = none
  vlog : VlogIdle buildVlog w

/-- **Between two rounds.** -/
inductive Between (buildVlog : Bool) (w : Work σ) : Prop
  | idle (idle : Idle buildVlog w)
  | writing {h : ℕ} {t : TableBuilder} (table : Writing w h t) (vlog : VlogOpen buildVlog w)
  | null (null : Null w)

/-- An output is open, or could not be. -/
inductive Opened (buildVlog : Bool) (w : Work σ) : Prop
  | writing {h : ℕ} {t : TableBuilder} (table : Writing w h t) (vlog : VlogOpen buildVlog w)
  | null (null : Null w)

/-- A step failed and is returned; the builders can be destroyed. -/
structure Reported (w : Work σ) : Prop where
  last : ∃ before s c, w.steps = before ++ [(s, .fail c)] ∧ Quiet before ∧ s.Reporting
  builder : ∀ t : TableBuilder, w.builder = some t → ∃ h, t.handle = some h
  vlogBuilder : ∀ b (t : TableBuilder), w.vlogBuilder = some b → b.builder = some t → ∃ h, t.handle = some h

/-- **How the function stops.** -/
def Stopped : Stop → Work σ → Prop
  | .returns _, w => Null w ∨ Reported w
  | .crash, w => CreateFailed w.steps ∨ Aborted w.steps

variable {buildVlog : Bool} {w w' : Work σ} {h : ℕ} {t : TableBuilder}

theorem Writing.congr (hw : Writing w h t) (steps : w'.steps = w.steps) (file : w'.file = w.file)
    (builder : w'.builder = w.builder) : Writing w' h t where
  quiet := steps ▸ hw.quiet
  file := file.trans hw.file
  builder := builder.trans hw.builder
  handle := hw.handle
  opened := hw.opened
  clean := fun live => steps ▸ hw.clean live

theorem Writing.ok (hw : Writing w h t) (s : WorkStep) : Writing (w.did s (.ok ())) h t where
  quiet := hw.quiet.ok s
  file := hw.file
  builder := hw.builder
  handle := hw.handle
  opened := hw.opened
  clean := fun live => (hw.clean live).ok s

theorem Null.congr (hw : Null w) (steps : ∃ new, w'.steps = w.steps ++ new) (file : w'.file = w.file)
    (builder : w'.builder = w.builder) : Null w' := by
  obtain ⟨new, hnew⟩ := steps
  obtain ⟨n, o, hmem, hne⟩ := hw.failed
  refine ⟨⟨n, o, ?_, hne⟩, file.trans hw.file, builder ▸ hw.builder⟩
  rw [hnew]
  exact List.mem_append_left _ hmem

theorem Null.did (hw : Null w) (s : WorkStep) (o : Outcome Unit) : Null (w.did s o) :=
  hw.congr ⟨_, rfl⟩ rfl rfl

theorem VlogOpen.congr (vlog : VlogOpen buildVlog w)
    (same : w'.vlogBuilder = w.vlogBuilder) : VlogOpen buildVlog w' := by
  refine ⟨fun deep => ?_, fun shallow => same.trans (vlog.shallow shallow)⟩
  rw [same]
  exact vlog.deep deep

/-- A step that fails while builders are on their files. -/
theorem reported_of_fail {before : Steps} (quiet : Quiet before) {s : WorkStep}
    (reporting : s.Reporting) {c : Code} (steps : w'.steps = before ++ [(s, .fail c)])
    (builder : w'.builder = some t) (handle : t.handle = some h) (vlog : VlogOpen buildVlog w') :
    Reported w' where
  last := ⟨before, s, c, steps, quiet, reporting⟩
  builder := fun t' ht' => ⟨h, Option.some.inj (builder.symm.trans ht') ▸ handle⟩
  vlogBuilder := by
    intro b t' hb ht'
    cases buildVlog with
    | false => exact absurd ((vlog.shallow rfl).symm.trans hb) (by simp)
    | true =>
        obtain ⟨b', h', t₁, hb', hopen⟩ := vlog.deep rfl
        obtain rfl : b' = b := Option.some.inj (hb'.symm.trans hb)
        exact ⟨h', Option.some.inj (hopen.builder.symm.trans ht') ▸ hopen.file⟩

/-- A step fails while an output is open. -/
theorem Writing.reported (hw : Writing w h t) (vlog : VlogOpen buildVlog w) {s : WorkStep}
    (reporting : s.Reporting) (c : Code) : Reported (w.did s (.fail c)) :=
  reported_of_fail hw.quiet reporting rfl hw.builder hw.handle (vlog.congr rfl)

end Places

/-! ## The parts of the function -/

section Parts

variable {σ α : Type} {fs : CompactionFiles σ} {crc32c : Bytes → ℕ} {buildVlog : Bool} {w : Work σ}
  {h : ℕ} {t : TableBuilder}

section Rules

variable {Q : α → Work σ → Prop} {E : Stop → Work σ → Prop}

theorem leaves_note {Q : PUnit → Work σ → Prop} (s : WorkStep) (o : Outcome Unit) :
    Leaves (note s o) Q E w ↔ Q ⟨⟩ (w.did s o) := Iff.rfl

theorem leaves_check (o : Outcome α) :
    Leaves (check o) Q E w ↔
      match o with
      | .ok a => Q a w
      | .fail c => E (.returns c) w
      | .fault => E .crash w := by
  cases o <;> rfl

theorem leaves_perform (s : WorkStep) (o : Outcome α) :
    Leaves (perform s o) Q E w ↔
      match o with
      | .ok a => Q a (w.did s (.ok ()))
      | .fail c => E (.returns c) (w.did s (.fail c))
      | .fault => E .crash (w.did s .fault) := by
  cases o <;> rfl

end Rules

/-- A builder on no file cannot be destroyed. -/
theorem destroyBuilder_null {world : σ} (null : t.handle = none) (live : t.status = true)
    (opened : t.closed = false) : destroyBuilder fs crc32c (some t) world = .fault := by
  have hdestroy : t.destroy fs.toFileLayer crc32c world = .fault := by
    rw [TableBuilder.destroy, if_neg (by simp [opened])]
    exact TableBuilder.finish_null fs.toFileLayer crc32c world null live
  rw [destroyBuilder, hdestroy]
  rfl

theorem createOutput_idle (quiet : Quiet w.steps) (clean : Clean w.steps)
    (builder : w.builder = none) :
    Leaves (createOutput fs crc32c) (fun _ w' => w'.vlogBuilder = w.vlogBuilder ∧
      ((∃ h t, Writing w' h t) ∨ Null w')) Stopped w := by
  simp only [createOutput, leaves_bind, leaves_get, leaves_note, leaves_check, leaves_modify, builder,
    destroyBuilder]
  refine ⟨rfl, ?_⟩
  cases hcreated : (fs.createTable w.fileno w.world).1 with
  | some h =>
      refine .inl ⟨h, .new (some h), ?_, rfl, rfl, rfl, rfl, fun _ => ?_⟩
      · exact quiet.ok _
      · exact clean.ok _
  | none =>
      refine .inr ⟨⟨w.fileno, .fail .kIOError, ?_, by simp⟩, rfl, _, rfl, rfl, rfl, rfl⟩
      exact List.mem_append_right _ (List.mem_singleton.mpr rfl)

theorem createOutput_null {Q : Unit → Work σ → Prop} (null : Null w) :
    Leaves (createOutput fs crc32c) Q Stopped w := by
  obtain ⟨t, ht, hhandle, hlive, hopen⟩ := null.builder
  simp only [createOutput, leaves_bind, leaves_get, leaves_note, leaves_check, ht,
    destroyBuilder_null hhandle hlive hopen]
  exact .inl (null.failed.snoc _ _)

theorem openVlog_writing (table : Writing w h t) (vlog : VlogIdle true w) :
    Leaves (openVlog fs) (fun _ => Opened true) Stopped w := by
  let b := w.vlogBuilder.getD VLogBuilder.new
  have hb : b.builder = none := by
    cases hvlog : w.vlogBuilder with
    | none => simp only [b, hvlog]; rfl
    | some b' => simpa only [b, hvlog, Option.getD_some] using (vlog b' hvlog).2.1
  simp only [openVlog, leaves_bind, leaves_get, leaves_set, leaves_perform]
  cases hcreated : fs.createVlog w.lastVlogFileNo w.world with
  | mk created world =>
      cases created with
      | some v =>
          have hopened : b.openFile fs.toFileLayer w.lastVlogFileNo w.world
              = (true, ⟨w.lastVlogFileNo, b.offset, some v, some (.new (some v))⟩, world) := by
            simp only [VLogBuilder.openFile, hcreated]
          simp only [b] at hopened
          rw [hopened]
          refine .writing (h := h) (t := t) (Writing.ok ?_ _) ⟨fun _ => ?_, by simp⟩
          · exact table.congr rfl rfl rfl
          · exact ⟨_, v, _, rfl, rfl, rfl, rfl, rfl⟩
      | none =>
          have hfailed : b.openFile fs.toFileLayer w.lastVlogFileNo w.world
              = (false, { b with fileNo := w.lastVlogFileNo, handle := none }, world) := by
            simp only [VLogBuilder.openFile, hcreated]
          simp only [b] at hfailed
          rw [hfailed]
          refine .inr ⟨⟨w.steps, .openVlog w.lastVlogFileNo, .kIOError, rfl, table.quiet, ⟨by simp, rfl⟩⟩, ?_, ?_⟩
          · exact fun t' ht' => ⟨h, Option.some.inj (table.builder.symm.trans ht') ▸ table.handle⟩
          · intro b' t' hb' ht'
            rw [← Option.some.inj hb'] at ht'
            exact absurd (hb.symm.trans ht') (by simp)

theorem openVlog_null (null : Null w) : Leaves (openVlog fs) (fun _ => Null) Stopped w := by
  simp only [openVlog, leaves_bind, leaves_get, leaves_set, leaves_perform]
  cases ((w.vlogBuilder.getD .new).openFile fs.toFileLayer w.lastVlogFileNo w.world).1 with
  | true => exact null.congr ⟨_, rfl⟩ rfl rfl
  | false => exact .inl (null.congr ⟨_, rfl⟩ rfl rfl)

theorem openOutput_idle (idle : Idle buildVlog w) :
    Leaves (openOutput fs crc32c buildVlog) (fun _ => Opened buildVlog) Stopped w := by
  rw [openOutput, leaves_bind]
  refine (createOutput_idle idle.quiet idle.clean idle.builder).mono ?_ fun _ _ h => h
  rintro - w' ⟨hvlog, hcreated⟩
  simp only [leaves_bind, leaves_get]
  rcases hcreated with ⟨h, t, table⟩ | null
  · cases buildVlog with
    | true => exact openVlog_writing table fun b hb => idle.vlog b (hvlog.symm.trans hb)
    | false =>
        have hnone : w'.vlogBuilder = none := by
          rw [hvlog]
          cases hb : w.vlogBuilder with
          | none => rfl
          | some b => exact absurd (idle.vlog b hb).1 (by simp)
        simp only [Bool.false_eq_true, if_false, table.file, leaves_check]
        exact .writing table ⟨by simp, fun _ => hnone⟩
  · cases buildVlog with
    | true => exact (openVlog_null null).mono (fun _ _ h => .null h) fun _ _ h => h
    | false =>
        simp only [Bool.false_eq_true, if_false, null.file, leaves_check]
        exact .inl null

theorem openIfNull_between (between : Between buildVlog w) :
    Leaves (openIfNull fs crc32c buildVlog) (fun _ => Opened buildVlog) Stopped w := by
  simp only [openIfNull, leaves_bind, leaves_get]
  cases between with
  | idle idle =>
      rw [idle.file]
      exact openOutput_idle idle
  | writing table vlog =>
      rw [table.file]
      exact .writing table vlog
  | null null =>
      rw [null.file]
      show Leaves (openOutput fs crc32c buildVlog) _ _ _
      rw [openOutput, leaves_bind]
      exact createOutput_null null

/-! ### Storing an entry -/

/-- Behind a failed creation everything may fail. -/
theorem Null.check {Q : α → Work σ → Prop} (null : Null w) {o : Outcome α} (h : ∀ a, Q a w) :
    Leaves (Fallible.check o) Q Stopped w := by
  rw [leaves_check]
  cases o with
  | ok a => exact h a
  | fail c => exact .inl null
  | fault => exact .inl null.failed

theorem Null.perform {Q : α → Work σ → Prop} (null : Null w) (s : WorkStep) {o : Outcome α}
    (h : ∀ a, Q a (w.did s (.ok ()))) : Leaves (Fallible.perform s o) Q Stopped w := by
  rw [leaves_perform]
  cases o with
  | ok a => exact h a
  | fail c => exact .inl (null.did _ _)
  | fault => exact .inl (null.did _ _).failed

theorem Writing.perform {Q : α → Work σ → Prop} (table : Writing w h t) (vlog : VlogOpen buildVlog w)
    {s : WorkStep} (reporting : s.Reporting) {o : Outcome α} (h : ∀ a, Q a (w.did s (.ok ()))) :
    Leaves (Fallible.perform s o) Q Stopped w := by
  rw [leaves_perform]
  cases o with
  | ok a => exact h a
  | fail c => exact .inr (table.reported vlog reporting c)
  | fault => exact .inr ⟨s, List.mem_append_right _ (List.mem_singleton.mpr rfl)⟩

theorem moveValue_writing (table : Writing w h t) (vlog : VlogOpen true w) (e : Entry Bytes) :
    Leaves (moveValue fs crc32c e) (fun _ w' => Writing w' h t ∧ VlogOpen true w') Stopped w := by
  rw [moveValue, leaves_bind]
  refine table.perform (s := .decode) vlog ⟨by simp, rfl⟩ fun info => ?_
  obtain ⟨b, v, tv, hb, hopen⟩ := vlog.deep rfl
  simp only [leaves_bind, leaves_get, leaves_set]
  have table₁ : Writing { w.did .decode (.ok ()) with world := (fs.readValue info w.world).2 } h t :=
    (table.ok .decode).congr rfl rfl rfl
  have vlog₁ : VlogOpen true { w.did .decode (.ok ()) with world := (fs.readValue info w.world).2 } :=
    ⟨vlog.deep, vlog.shallow⟩
  refine table₁.perform (s := .readValue) vlog₁ ⟨by simp, rfl⟩ fun value => ?_
  simp only [Work.did, leaves_bind, leaves_get, leaves_set, leaves_check, hb, Outcome.ofOption_some]
  obtain ⟨info', b', t', world, happend, hopen', -⟩ :=
    hopen.append_acts fs.toFileLayer crc32c (fs.readValue info w.world).2 e.key value
  rw [happend]
  have table₂ := table₁.ok .readValue
  have vlog₂ : ∀ w' : Work σ, w'.vlogBuilder = some b' → VlogOpen true w' :=
    fun w' hw' => ⟨fun _ => ⟨b', v, t', hw', hopen'⟩, by simp⟩
  refine Writing.perform (h := h) (t := t) (s := .appendVlog) ?_ (vlog₂ _ rfl) ⟨by simp, rfl⟩ fun _ => ⟨?_, vlog₂ _ rfl⟩
  · exact table₂.congr rfl rfl rfl
  · exact (table₂.ok .appendVlog).congr rfl rfl rfl

theorem moveValue_null (null : Null w) (e : Entry Bytes) :
    Leaves (moveValue fs crc32c e) (fun _ => Null) Stopped w := by
  rw [moveValue, leaves_bind]
  refine null.perform _ fun info => ?_
  simp only [leaves_bind, leaves_get, leaves_set]
  have null₁ : Null { w.did .decode (.ok ()) with world := (fs.readValue info w.world).2 } :=
    (null.did .decode (.ok ())).congr ⟨[], (List.append_nil _).symm⟩ rfl rfl
  refine null₁.perform _ fun value => ?_
  have null₂ := null₁.did .readValue (.ok ())
  simp only [leaves_bind, leaves_get]
  refine null₂.check fun b => ?_
  rw [leaves_bind]
  refine null₂.check fun appended => ?_
  simp only [leaves_bind, leaves_set]
  refine Null.perform ?_ _ fun _ => ?_
  · exact null₂.congr ⟨[], (List.append_nil _).symm⟩ rfl rfl
  · exact null₂.congr ⟨_, rfl⟩ rfl rfl

theorem addEntry_writing (table : Writing w h t) (vlog : VlogOpen buildVlog w) (key : InternalKey)
    (value : Bytes) :
    Leaves (addEntry fs crc32c key value) (fun ok w' => (∃ t', Writing w' h t') ∧
      VlogOpen buildVlog w' ∧ (ok = false → Reported w')) Stopped w := by
  obtain ⟨t', world, hadd, hacts, hopen⟩ :=
    TableBuilder.add_acts fs.toFileLayer crc32c w.world table.handle table.opened key value
  simp only [addEntry, leaves_bind, leaves_get, leaves_check, table.builder, Outcome.ofOption_some, hadd,
    leaves_set, leaves_note, leaves_pure]
  have hhandle : t'.handle = some h := hacts.handle.trans table.handle
  refine ⟨⟨t', ?_, table.file, rfl, hhandle, hopen, fun live => ?_⟩, ⟨vlog.deep, vlog.shallow⟩,
    fun failed => ?_⟩
  · exact table.quiet.status (.inl rfl) t'.status
  · have hlive : t.status = true := by
      by_contra hstuck
      rw [(hacts.stuck (Bool.eq_false_iff.mpr hstuck)).2] at live
      cases live
    rw [live]
    exact (table.clean hlive).ok .add
  · rw [failed]
    exact reported_of_fail (s := .add) table.quiet ⟨by simp, rfl⟩ rfl rfl hhandle (vlog.congr rfl)

theorem addEntry_null (null : Null w) (key : InternalKey) (value : Bytes) :
    Leaves (addEntry fs crc32c key value) (fun _ => Null) Stopped w := by
  obtain ⟨t, ht, hhandle, hlive, hopen⟩ := null.builder
  simp only [addEntry, leaves_bind, leaves_get, leaves_check, ht, Outcome.ofOption_some]
  rcases TableBuilder.add_null fs.toFileLayer crc32c w.world hhandle hopen key value with
    hfault | ⟨t', hadd, hnull, hstatus, hclosed⟩
  · rw [hfault]
    exact .inl null.failed
  · rw [hadd]
    exact ⟨null.failed.snoc _ _, null.file, t', rfl, hnull, hstatus.trans hlive, hclosed⟩

theorem storedValue_opened (opened : Opened buildVlog w) (e : Entry Bytes) :
    Leaves (storedValue fs crc32c buildVlog e) (fun _ => Opened buildVlog) Stopped w := by
  cases buildVlog with
  | false => exact opened
  | true =>
      cases opened with
      | writing table vlog =>
          exact (moveValue_writing table vlog e).mono (fun _ _ h => .writing h.1 h.2) fun _ _ h => h
      | null null => exact (moveValue_null null e).mono (fun _ _ h => .null h) fun _ _ h => h

theorem storeEntry_opened (opened : Opened buildVlog w) (e : Entry Bytes) :
    Leaves (storeEntry fs crc32c buildVlog e) (fun _ => Opened buildVlog) Stopped w := by
  have hadd : ∀ {w : Work σ}, Opened buildVlog w → ∀ value,
      Leaves (addEntry fs crc32c e.key value) (fun ok w' => Opened buildVlog w' ∧
        (ok = false → Null w' ∨ Reported w')) Stopped w := by
    intro w opened value
    cases opened with
    | writing table vlog =>
        refine (addEntry_writing table vlog e.key value).mono ?_ fun _ _ h => h
        rintro ok w' ⟨⟨t', table'⟩, vlog', hfailed⟩
        exact ⟨.writing table' vlog', fun h => .inr (hfailed h)⟩
    | null null =>
        exact (addEntry_null null e.key value).mono (fun _ _ h => ⟨.null h, fun _ => .inl h⟩) fun _ _ h => h
  rw [storeEntry, leaves_ite]
  refine ⟨fun _ => ?_, fun _ => ?_⟩
  · rw [leaves_bind]
    exact (hadd opened _).mono (fun _ _ h => h.1) fun _ _ h => h
  · rw [leaves_bind]
    refine (storedValue_opened opened e).mono (fun value w' opened' => ?_) fun _ _ h => h
    rw [leaves_bind]
    refine (hadd opened' value).mono (fun ok w'' hadded => ?_) fun _ _ h => h
    rw [leaves_check]
    cases ok with
    | true => exact hadded.1
    | false => exact hadded.2 rfl

/-! ### Closing an output -/

/-- The table file is finished. -/
structure Finished (w : Work σ) (h : ℕ) (t : TableBuilder) : Prop where
  quiet : Quiet w.steps
  clean : Clean w.steps
  file : w.file = some h
  builder : w.builder = some t
  handle : t.handle = some h
  closed : t.closed = true

theorem Finished.congr (hw : Finished w h t) (steps : w'.steps = w.steps) (file : w'.file = w.file)
    (builder : w'.builder = w.builder) : Finished w' h t where
  quiet := steps ▸ hw.quiet
  clean := steps ▸ hw.clean
  file := file.trans hw.file
  builder := builder.trans hw.builder
  handle := hw.handle
  closed := hw.closed

theorem Finished.ok (hw : Finished w h t) (s : WorkStep) : Finished (w.did s (.ok ())) h t :=
  ⟨hw.quiet.ok s, hw.clean.ok s, hw.file, hw.builder, hw.handle, hw.closed⟩

theorem finishTable_writing (table : Writing w h t) (vlog : VlogOpen buildVlog w) (key : InternalKey) :
    Leaves (finishTable fs crc32c key) (fun _ w' => (∃ t', Finished w' h t') ∧ VlogOpen buildVlog w')
      Stopped w := by
  let t₀ : TableBuilder := { t with toTableBuilder := t.toTableBuilder.setLastKey key }
  obtain ⟨t', world, hfinish, hacts, hclosed⟩ :=
    TableBuilder.finish_acts (t := t₀) fs.toFileLayer crc32c w.world table.handle
  have hhandle : t'.handle = some h := hacts.handle.trans table.handle
  simp only [finishTable, leaves_bind, leaves_get, leaves_check, table.builder, Outcome.ofOption_some]
  simp only [t₀] at hfinish
  rw [hfinish]
  simp only [leaves_set, leaves_perform]
  cases hstatus : t'.status with
  | true =>
      have hlive : t.status = true := by
        by_contra hstuck
        have hlast := (hacts.stuck (Bool.eq_false_iff.mpr hstuck)).2
        rw [hstatus] at hlast
        cases hlast
      refine ⟨⟨t', ?_, ?_, table.file, rfl, hhandle, hclosed⟩, vlog.congr rfl⟩
      · exact table.quiet.ok .finish
      · exact (table.clean hlive).ok .finish
  | false =>
      exact .inr (reported_of_fail (s := .finish) table.quiet ⟨by simp, rfl⟩ rfl rfl hhandle (vlog.congr rfl))

variable (buildVlog) in
theorem Finished.perform (table : Finished w h t) (vlog : VlogOpen buildVlog w) {s : WorkStep}
    (reporting : s.Reporting) (ok : Bool) {Q : Unit → Work σ → Prop} (next : Q () (w.did s (.ok ()))) :
    Leaves (Fallible.perform s (Fallible.status ok)) Q Stopped w := by
  rw [leaves_perform]
  cases ok with
  | true => exact next
  | false =>
      exact .inr (reported_of_fail table.quiet reporting rfl table.builder table.handle (vlog.congr rfl))

theorem closeTable_finished (table : Finished w h t) (vlog : VlogOpen buildVlog w) :
    Leaves (closeTable fs) (fun _ w' => Finished w' h t ∧ VlogOpen buildVlog w') Stopped w := by
  simp only [closeTable, leaves_bind, leaves_get, leaves_check, table.file, Outcome.ofOption_some,
    leaves_set]
  refine Finished.perform buildVlog (h := h) (t := t) (s := .syncTable) ?_ ?_ ⟨by simp, rfl⟩ _ ?_
  · exact table.congr rfl table.file.symm rfl
  · exact vlog.congr rfl
  simp only [leaves_bind, leaves_get, leaves_set]
  have synced := table.ok .syncTable
  refine Finished.perform buildVlog (h := h) (t := t) (s := .closeTable) ?_ ?_ ⟨by simp, rfl⟩ _ ?_
  · exact synced.congr rfl table.file.symm rfl
  · exact vlog.congr rfl
  · exact ⟨(synced.ok .closeTable).congr rfl table.file.symm rfl, vlog.congr rfl⟩

/-- The file is closed and the log is still open. -/
structure Cut (buildVlog : Bool) (w : Work σ) : Prop where
  quiet : Quiet w.steps
  clean : Clean w.steps
  file : w.file = none
  builder : w.builder = none
  vlog : VlogOpen buildVlog w

theorem resetOutput_finished (table : Finished w h t) (vlog : VlogOpen buildVlog w) (number : ℕ) :
    Leaves (resetOutput fs crc32c number) (fun _ => Cut buildVlog) Stopped w := by
  have hdestroy : destroyBuilder fs crc32c w.builder w.world = .ok w.world := by
    simp only [table.builder, destroyBuilder, TableBuilder.destroy, table.closed, if_true,
      Outcome.ok_bind]
  simp only [resetOutput, leaves_bind, leaves_get, leaves_check, hdestroy, leaves_set]
  exact ⟨table.quiet, table.clean, rfl, rfl, vlog.congr rfl⟩

theorem vlogOfOutput_cut (cut : Cut buildVlog w) :
    Leaves (vlogOfOutput fs crc32c buildVlog) (fun _ => Idle buildVlog) Stopped w := by
  cases buildVlog with
  | false =>
      refine ⟨cut.quiet, cut.clean, cut.file, cut.builder, fun b hb => ?_⟩
      exact absurd ((cut.vlog.shallow rfl).symm.trans hb) (by simp)
  | true =>
      obtain ⟨b, v, tv, hb, hopen⟩ := cut.vlog.deep rfl
      obtain ⟨t', world, hclose, -⟩ := hopen.close_acts fs.toFileLayer crc32c w.world
      simp only [vlogOfOutput, if_true, closeVlog, leaves_bind, leaves_get, leaves_check, hb,
        Outcome.ofOption_some, hclose, leaves_set, leaves_note, leaves_pure]
      refine ⟨cut.quiet.status (.inr rfl) _, cut.clean.silent rfl _, cut.file, cut.builder,
        fun b' hb' => ?_⟩
      rw [← Option.some.inj hb']
      exact ⟨rfl, rfl, rfl⟩

theorem closeOutput_writing (table : Writing w h t) (vlog : VlogOpen buildVlog w) (key : InternalKey) :
    Leaves (closeOutput fs crc32c buildVlog key) (fun _ => Idle buildVlog) Stopped w := by
  simp only [closeOutput, leaves_bind, leaves_get]
  refine (finishTable_writing table vlog key).mono ?_ fun _ _ h => h
  rintro - w₁ ⟨⟨t₁, table₁⟩, vlog₁⟩
  rw [leaves_bind]
  refine (closeTable_finished table₁ vlog₁).mono ?_ fun _ _ h => h
  rintro - w₂ ⟨table₂, vlog₂⟩
  rw [leaves_bind]
  refine (resetOutput_finished table₂ vlog₂ _).mono (fun _ w₃ cut => ?_) fun _ _ h => h
  rw [leaves_bind]
  refine (vlogOfOutput_cut cut).mono (fun n w₄ idle => ?_) fun _ _ h => h
  exact ⟨idle.quiet, idle.clean, idle.file, idle.builder, idle.vlog⟩

/-- The builder on the null pointer cannot be finished. -/
theorem closeOutput_null {Q : Unit → Work σ → Prop} (null : Null w) (key : InternalKey) :
    Leaves (closeOutput fs crc32c buildVlog key) Q Stopped w := by
  obtain ⟨t, ht, hhandle, hlive, -⟩ := null.builder
  have hfault : TableBuilder.finish fs.toFileLayer crc32c
      { t with toTableBuilder := t.toTableBuilder.setLastKey key } w.world = .fault :=
    TableBuilder.finish_null fs.toFileLayer crc32c w.world hhandle hlive
  simp only [closeOutput, leaves_bind, leaves_get, finishTable, leaves_check, ht, Outcome.ofOption_some,
    hfault]
  exact .inl null.failed

/-! ### The function -/

theorem Between.unreported (between : Between buildVlog w) (ok : Bool) :
    Between buildVlog (w.did .unreported (Fallible.status ok)) := by
  cases between with
  | idle idle =>
      exact .idle ⟨idle.quiet.status (.inr rfl) ok, idle.clean.silent rfl _, idle.file, idle.builder,
        idle.vlog⟩
  | writing table vlog =>
      refine .writing ⟨table.quiet.status (.inr rfl) ok, table.file, table.builder, table.handle,
        table.opened, fun live => ?_⟩ (vlog.congr rfl)
      exact (table.clean live).silent rfl _
  | null null => exact .null (null.did _ _)

/-- What is lost in a part is noted, whatever comes of it. -/
theorem leaves_noting {part : WorkM σ Unit} {Q Q' : Unit → Work σ → Prop} {E : Stop → Work σ → Prop}
    (leaves : Leaves part Q' E w)
    (noted : ∀ w' ok, Q' () w' → Q () (w'.did .unreported (Fallible.status ok))) :
    Leaves (noting fs part) Q E w := by
  simp only [noting, leaves_bind, leaves_get]
  exact leaves.mono (fun _ w' h => noted w' _ h) fun _ _ h => h

theorem cutIfFull_opened (opened : Opened buildVlog w) (key : InternalKey) :
    Leaves (cutIfFull fs crc32c buildVlog key) (fun _ => Between buildVlog) Stopped w := by
  simp only [cutIfFull, leaves_bind, leaves_get]
  cases opened with
  | writing table vlog =>
      simp only [table.builder, Outcome.ofOption_some, leaves_check, leaves_ite]
      refine ⟨fun _ => ?_, fun _ => .writing table vlog⟩
      exact (closeOutput_writing table vlog key).mono (fun _ _ h => .idle h) fun _ _ h => h
  | null null =>
      obtain ⟨t, ht, -⟩ := null.builder
      simp only [ht, Outcome.ofOption_some, leaves_check, leaves_ite]
      exact ⟨fun _ => closeOutput_null null key, fun _ => .null null⟩

/-- **One round.** -/
theorem round_between (live : ℕ) (e : Entry Bytes) (between : Between buildVlog w) :
    Leaves (round fs crc32c buildVlog live e) (fun _ => Between buildVlog) Stopped w := by
  simp only [round, leaves_bind, leaves_modify]
  have hseen : Between buildVlog { w with smallest := some (w.smallest.getD e.key) } := by
    cases between with
    | idle idle => exact .idle ⟨idle.quiet, idle.clean, idle.file, idle.builder, idle.vlog⟩
    | writing table vlog => exact .writing (table.congr rfl rfl rfl) (vlog.congr rfl)
    | null null => exact .null (null.congr ⟨[], (List.append_nil _).symm⟩ rfl rfl)
  have hkept : Leaves (keepEntry fs crc32c buildVlog e) (fun _ => Between buildVlog) Stopped
      { w with smallest := some (w.smallest.getD e.key) } := by
    rw [keepEntry, leaves_bind]
    refine (openIfNull_between hseen).mono (fun _ w₁ opened => ?_) fun _ _ h => h
    rw [leaves_bind]
    refine (storeEntry_opened opened e).mono (fun _ w₂ opened' => ?_) fun _ _ h => h
    exact cutIfFull_opened opened' e.key
  rw [leaves_ite]
  exact ⟨fun _ => hseen, fun _ => leaves_noting hkept fun w' ok between => between.unreported ok⟩

theorem closeLast_between (between : Between buildVlog w) {lastKey : Option InternalKey}
    (last : w.builder ≠ none → lastKey ≠ none) :
    Leaves (closeLast fs crc32c buildVlog lastKey) (fun _ => Idle buildVlog) Stopped w := by
  simp only [closeLast, leaves_bind, leaves_get]
  have hkey : w.builder.isSome = true → ∃ key, lastKey = some key := fun hsome =>
    Option.ne_none_iff_exists'.mp (last (Option.isSome_iff_ne_none.mp hsome))
  rw [leaves_ite]
  refine ⟨fun hsome => ?_, fun hnone => ?_⟩
  · obtain ⟨key, rfl⟩ := hkey hsome
    simp only [leaves_bind, leaves_check, Outcome.ofOption_some]
    cases between with
    | idle idle => exact absurd idle.builder (Option.isSome_iff_ne_none.mp hsome)
    | writing table vlog =>
        refine (closeOutput_writing table vlog key).mono (fun _ w' idle => ?_) fun _ _ h => h
        rw [leaves_ite]
        exact ⟨fun _ => ⟨idle.quiet, idle.clean, idle.file, idle.builder, by simp [VlogIdle]⟩, fun _ => idle⟩
    | null null => exact closeOutput_null null key
  · cases between with
    | idle idle => exact idle
    | writing table vlog => exact absurd (table.builder ▸ rfl) hnone
    | null null =>
        obtain ⟨t, ht, -⟩ := null.builder
        exact absurd (ht ▸ rfl) hnone

theorem assertEmpty_idle (idle : Idle buildVlog w) :
    Leaves (assertEmpty : WorkM σ Unit) (fun _ => Idle buildVlog) Stopped w := by
  have hempty : ¬ (w.vlogBuilder.bind (·.builder)).isSome = true := by
    cases hb : w.vlogBuilder with
    | none => simp
    | some b => simp [(idle.vlog b hb).2.1]
  simp only [assertEmpty, leaves_bind, leaves_get]
  rw [leaves_ite]
  exact ⟨fun h => absurd h hempty, fun _ => idle⟩

variable (fs crc32c) in
/-- **The whole function**, from a state with no output open. -/
theorem body_idle (idle : Idle buildVlog w) (live : ℕ) (visited : List (Entry Bytes)) :
    Leaves (body fs crc32c buildVlog live visited) (fun _ => Idle buildVlog) Stopped w := by
  rw [body, leaves_bind]
  have hloop : Leaves (visited.forM (round fs crc32c buildVlog live))
      (fun _ w' => Between buildVlog w' ∧ (w'.builder ≠ none → visited.getLast? ≠ none)) Stopped w := by
    cases visited with
    | nil => exact ⟨.idle idle, fun hne => absurd idle.builder hne⟩
    | cons e es =>
        refine (leaves_forM (fun e w => round_between live e) (e :: es) (.idle idle)).mono ?_ fun _ _ h => h
        exact fun _ w' between => ⟨between, fun _ => by simp⟩
  refine hloop.mono ?_ fun _ _ h => h
  rintro - w' ⟨between, last⟩
  rw [leaves_bind]
  have hlast : w'.builder ≠ none → visited.getLast?.map (·.key) ≠ none := by
    intro hne
    simpa using last hne
  refine (leaves_noting (closeLast_between between hlast) fun w'' ok idle => ?_).mono
    (fun _ _ => assertEmpty_idle) fun _ _ h => h
  exact ⟨idle.quiet.status (.inr rfl) ok, idle.clean.silent rfl _, idle.file, idle.builder, idle.vlog⟩

end Parts

/-! ## How the function ends -/

section Ended

variable {σ : Type} {fs : CompactionFiles σ} {crc32c : Bytes → ℕ} {buildVlog : Bool} {w : Work σ}

/-- **What the steps say about the end**: all is well, or the last step is the one that is returned,
or a creation failed or a step was aborted. -/
inductive Ended (steps : Steps) : Exit → Prop
  | ok (quiet : Quiet steps) (clean : Clean steps) : Ended steps (.returned none)
  | reported {before : Steps} {s : WorkStep} {c c' : Code} (last : steps = before ++ [(s, .fail c)])
      (quiet : Quiet before) (reporting : s.Reporting) : Ended steps (.returned (some c'))
  | crashed (why : CreateFailed steps ∨ Aborted steps) : Ended steps .crashed

variable (fs crc32c) in
/-- A value log builder on its file can be closed. -/
theorem close_isOk (world : σ) {b : VLogBuilder}
    (handles : ∀ t : TableBuilder, b.builder = some t → ∃ h, t.handle = some h) :
    ∃ r, b.close fs.toFileLayer crc32c world = .ok r := by
  cases hb : b.builder with
  | none =>
      apply Exists.intro
      simp only [VLogBuilder.close, VLogBuilder.resetBuilder, hb, Outcome.ok_bind]
      rfl
  | some t =>
      obtain ⟨h, hh⟩ := handles t hb
      obtain ⟨t', world', hdestroy, -⟩ := TableBuilder.destroy_acts fs.toFileLayer crc32c world hh
      apply Exists.intro
      simp only [VLogBuilder.close, VLogBuilder.resetBuilder, hb, hdestroy, Outcome.ok_bind]
      rfl

variable (fs crc32c) in
/-- Builders that are on their files can be destroyed. -/
theorem returnFrom_destroyable
    (builder : ∀ t : TableBuilder, w.builder = some t → ∃ h, t.handle = some h)
    (vlogBuilder : ∀ b (t : TableBuilder), w.vlogBuilder = some b → b.builder = some t →
      ∃ h, t.handle = some h) (error : Option Code) :
    ∃ world, returnFrom fs crc32c error w = (.returned error, { w with world := world }) := by
  obtain ⟨world₁, h₁⟩ : ∃ world, destroyVlogBuilder fs crc32c w.vlogBuilder w.world = .ok world := by
    cases hb : w.vlogBuilder with
    | none => exact ⟨_, rfl⟩
    | some b =>
        obtain ⟨r, hr⟩ := close_isOk fs crc32c w.world fun t => vlogBuilder b t hb
        exact ⟨r.2.2, by rw [destroyVlogBuilder, hr, Outcome.ok_bind]⟩
  obtain ⟨world₂, h₂⟩ : ∃ world, destroyBuilder fs crc32c w.builder world₁ = .ok world := by
    cases ht : w.builder with
    | none => exact ⟨_, rfl⟩
    | some t =>
        obtain ⟨h, hh⟩ := builder t ht
        obtain ⟨t', world', hdestroy, -⟩ := TableBuilder.destroy_acts fs.toFileLayer crc32c world₁ hh
        exact ⟨world', by rw [destroyBuilder, hdestroy, Outcome.ok_bind]⟩
  exact ⟨_, by rw [returnFrom, leave, h₁, Outcome.ok_bind, h₂, Outcome.ok_bind]⟩

/-- **A return crashes while there is a builder on the null pointer.** -/
theorem returnFrom_null (null : Null w) (error : Option Code) :
    returnFrom fs crc32c error w = (.crashed, w) := by
  obtain ⟨t, ht, hhandle, hlive, hopen⟩ := null.builder
  rw [returnFrom, leave, ht]
  cases destroyVlogBuilder fs crc32c w.vlogBuilder w.world with
  | ok world =>
      rw [Outcome.ok_bind, destroyBuilder_null hhandle hlive hopen]
      rfl
  | fail c => rfl
  | fault => rfl

variable (fs crc32c) in
theorem buildWhenCompaction_ended (idle : Idle buildVlog w) (live : ℕ) (visited : List (Entry Bytes)) :
    Ended (buildWhenCompaction fs crc32c buildVlog live visited w).2.steps
      (buildWhenCompaction fs crc32c buildVlog live visited w).1 := by
  have hbody := body_idle fs crc32c idle live visited
  unfold Leaves at hbody
  unfold buildWhenCompaction
  split at hbody
  · rename_i w' hw'
    rw [hw']
    obtain ⟨world, hreturn⟩ := returnFrom_destroyable fs crc32c (w := w')
      (fun t ht => absurd (hbody.builder.symm.trans ht) (by simp))
      (fun b t hb ht => absurd ((hbody.vlog b hb).2.1.symm.trans ht) (by simp)) none
    simp only [hreturn]
    exact .ok hbody.quiet hbody.clean
  · rename_i e w' hw'
    rw [hw']
    cases e with
    | crash => exact .crashed hbody
    | returns c =>
        rcases hbody with null | reported
        · simp only [returnFrom_null null]
          exact .crashed (.inl null.failed)
        · obtain ⟨before, s, c₁, hsteps, hquiet, hreporting⟩ := reported.last
          obtain ⟨world, hreturn⟩ := returnFrom_destroyable fs crc32c
            reported.builder reported.vlogBuilder (some c)
          simp only [hreturn]
          exact .reported hsteps hquiet hreporting

end Ended

/-! ## The numbers of the outputs -/

section Fresh

variable {σ α : Type} {fs : CompactionFiles σ} {crc32c : Bytes → ℕ} {buildVlog : Bool} {w w' : Work σ}
  {n₀ v₀ : ℕ}

/-- **Files are created under new numbers.** -/
structure Fresh (n₀ v₀ : ℕ) (w : Work σ) : Prop where
  fileno : n₀ ≤ w.fileno
  vlogNo : v₀ ≤ w.lastVlogFileNo
  tables : ∀ n o, (WorkStep.createTable n, o) ∈ w.steps → n₀ ≤ n
  vlogs : ∀ n o, (WorkStep.openVlog n, o) ∈ w.steps → v₀ ≤ n

theorem Fresh.congr (fresh : Fresh n₀ v₀ w) (steps : w'.steps = w.steps) (fileno : w'.fileno = w.fileno)
    (vlogNo : w'.lastVlogFileNo = w.lastVlogFileNo) : Fresh n₀ v₀ w' where
  fileno := fileno ▸ fresh.fileno
  vlogNo := vlogNo ▸ fresh.vlogNo
  tables := steps ▸ fresh.tables
  vlogs := steps ▸ fresh.vlogs

/-- One more step, which opens nothing or a file under a new number. -/
theorem Fresh.did (fresh : Fresh n₀ v₀ w) {s : WorkStep} (table : ∀ n, s = .createTable n → n₀ ≤ n)
    (vlog : ∀ n, s = .openVlog n → v₀ ≤ n) (o : Outcome Unit) : Fresh n₀ v₀ (w.did s o) := by
  refine ⟨fresh.fileno, fresh.vlogNo, fun n o' hmem => ?_, fun n o' hmem => ?_⟩
  · rcases List.mem_append.mp hmem with hmem | hmem
    · exact fresh.tables n o' hmem
    · exact table n (congrArg Prod.fst (List.mem_singleton.mp hmem)).symm
  · rcases List.mem_append.mp hmem with hmem | hmem
    · exact fresh.vlogs n o' hmem
    · exact vlog n (congrArg Prod.fst (List.mem_singleton.mp hmem)).symm

theorem keeps_check {P : Work σ → Prop} (o : Outcome α) : Keeps P (check o) := by
  intro w hw
  cases o <;> exact hw

/-- A step that opens nothing. -/
theorem keeps_note (s : WorkStep) (opens : s.opens = false) (o : Outcome Unit) :
    Keeps (Fresh (σ := σ) n₀ v₀) (note s o) := by
  refine Keeps.modify fun w fresh => fresh.did (fun n hn => ?_) (fun n hn => ?_) o
  · rw [hn] at opens
    cases opens
  · rw [hn] at opens
    cases opens

theorem keeps_perform (s : WorkStep) (opens : s.opens = false) (o : Outcome α) :
    Keeps (Fresh (σ := σ) n₀ v₀) (perform s o) :=
  Keeps.bind (keeps_note s opens _) fun _ => keeps_check o

theorem keeps_noting {part : WorkM σ Unit} (keeps : Keeps (Fresh n₀ v₀) part) :
    Keeps (Fresh n₀ v₀) (noting fs part) := by
  intro w fresh
  rw [noting, leaves_get_bind]
  refine Keeps.bind keeps (fun _ w' fresh' => ?_) w fresh
  rw [leaves_get_bind]
  exact keeps_note .unreported rfl _ w' fresh'

theorem keeps_createOutput : Keeps (Fresh n₀ v₀) (createOutput fs crc32c) := by
  intro w fresh
  rw [createOutput, leaves_get_bind]
  refine Keeps.bind (fun w' fresh' => ?_) (fun _ => Keeps.bind (keeps_check _) fun world =>
    Keeps.modify fun w' fresh' => ?_) w fresh
  · refine fresh'.did (fun n hn => ?_) (fun n hn => ?_) _
    · rw [← WorkStep.createTable.inj hn]
      exact fresh.fileno
    · cases hn
  · exact fresh'.congr rfl rfl rfl

theorem keeps_openVlog : Keeps (Fresh n₀ v₀) (openVlog fs) := by
  intro w fresh
  rw [openVlog, leaves_get_bind, leaves_set_bind]
  refine Keeps.bind (fun w' fresh' => ?_) (fun _ => keeps_check _) _ ⟨fresh.fileno, ?_, ?_, ?_⟩
  · refine fresh'.did (fun n hn => ?_) (fun n hn => ?_) _
    · cases hn
    · rw [← WorkStep.openVlog.inj hn]
      exact fresh.vlogNo
  · show v₀ ≤ if _ then _ else _
    split
    · exact Nat.le_succ_of_le fresh.vlogNo
    · exact fresh.vlogNo
  · exact fresh.tables
  · exact fresh.vlogs

theorem keeps_openIfNull : Keeps (Fresh n₀ v₀) (openIfNull fs crc32c buildVlog) := by
  intro w fresh
  rw [openIfNull, leaves_get_bind]
  refine Keeps.ite ?_ (Keeps.pure _) w fresh
  refine Keeps.bind keeps_createOutput fun _ w' fresh' => ?_
  rw [leaves_get_bind]
  exact Keeps.ite keeps_openVlog (keeps_check _) w' fresh'

theorem keeps_moveValue (e : Entry Bytes) : Keeps (Fresh n₀ v₀) (moveValue fs crc32c e) := by
  refine Keeps.bind (keeps_perform .decode rfl _) fun info w fresh => ?_
  rw [leaves_get_bind, leaves_set_bind]
  refine Keeps.bind (keeps_perform .readValue rfl _) (fun value w₁ fresh₁ => ?_) _ (fresh.congr rfl rfl rfl)
  rw [leaves_get_bind]
  refine Keeps.bind (keeps_check _) (fun b => Keeps.bind (keeps_check _) fun r w₂ fresh₂ => ?_) w₁ fresh₁
  rw [leaves_set_bind]
  exact Keeps.bind (keeps_perform .appendVlog rfl _) (fun _ => Keeps.pure _) _ (fresh₁.congr rfl rfl rfl)

theorem keeps_addEntry (key : InternalKey) (value : Bytes) :
    Keeps (Fresh n₀ v₀) (addEntry fs crc32c key value) := by
  intro w fresh
  rw [addEntry, leaves_get_bind]
  refine Keeps.bind (keeps_check _) (fun t => Keeps.bind (keeps_check _) fun added w' fresh' => ?_) w fresh
  rw [leaves_set_bind]
  exact Keeps.bind (keeps_note .add rfl _) (fun _ => Keeps.pure _) _ (fresh.congr rfl rfl rfl)

theorem keeps_storeEntry (e : Entry Bytes) :
    Keeps (Fresh n₀ v₀) (storeEntry fs crc32c buildVlog e) := by
  have hvalue : Keeps (Fresh n₀ v₀) (storedValue fs crc32c buildVlog e) :=
    Keeps.ite (keeps_moveValue e) (Keeps.pure _)
  refine Keeps.ite (Keeps.bind (keeps_addEntry _ _) fun _ => Keeps.pure _) ?_
  exact Keeps.bind hvalue fun value => Keeps.bind (keeps_addEntry _ _) fun _ => keeps_check _

theorem keeps_finishTable (key : InternalKey) : Keeps (Fresh n₀ v₀) (finishTable fs crc32c key) := by
  intro w fresh
  rw [finishTable, leaves_get_bind]
  refine Keeps.bind (keeps_check _) (fun t => Keeps.bind (keeps_check _) fun r w' fresh' => ?_) w fresh
  rw [leaves_set_bind]
  exact keeps_perform .finish rfl _ _ (fresh.congr rfl rfl rfl)

theorem keeps_closeTable : Keeps (Fresh n₀ v₀) (closeTable fs) := by
  intro w fresh
  rw [closeTable, leaves_get_bind]
  refine Keeps.bind (keeps_check _) (fun h w' fresh' => ?_) w fresh
  rw [leaves_set_bind]
  refine Keeps.bind (keeps_perform .syncTable rfl _) (fun _ w₁ fresh₁ => ?_) _ (fresh.congr rfl rfl rfl)
  rw [leaves_get_bind, leaves_set_bind]
  exact keeps_perform .closeTable rfl _ _ (fresh₁.congr rfl rfl rfl)

theorem keeps_closeVlog : Keeps (Fresh n₀ v₀) (closeVlog fs crc32c) := by
  intro w fresh
  rw [closeVlog, leaves_get_bind]
  refine Keeps.bind (keeps_check _) (fun b => Keeps.bind (keeps_check _) fun r w' fresh' => ?_) w fresh
  rw [leaves_set_bind]
  exact Keeps.bind (keeps_note .closeVlog rfl _) (fun _ => Keeps.pure _) _ (fresh.congr rfl rfl rfl)

theorem keeps_closeOutput (key : InternalKey) :
    Keeps (Fresh n₀ v₀) (closeOutput fs crc32c buildVlog key) := by
  have hvlog : Keeps (Fresh n₀ v₀) (vlogOfOutput fs crc32c buildVlog) :=
    Keeps.ite keeps_closeVlog (Keeps.pure _)
  intro w fresh
  rw [closeOutput, leaves_get_bind]
  refine Keeps.bind (keeps_finishTable key) (fun _ => Keeps.bind keeps_closeTable fun _ =>
    Keeps.bind (fun w₁ fresh₁ => ?_) fun _ => Keeps.bind hvlog fun n =>
      Keeps.modify fun w₂ fresh₂ => ?_) w fresh
  · -- The counter goes on from the number that the output was created under.
    rw [resetOutput, leaves_get_bind]
    refine Keeps.bind (keeps_check _) (fun world w₂ fresh₂ => ?_) w₁ fresh₁
    exact ⟨Nat.le_succ_of_le fresh.fileno, fresh₁.vlogNo, fresh₁.tables, fresh₁.vlogs⟩
  · exact fresh₂.congr rfl rfl rfl

theorem keeps_round (live : ℕ) (e : Entry Bytes) :
    Keeps (Fresh n₀ v₀) (round fs crc32c buildVlog live e) := by
  have hcut : Keeps (Fresh n₀ v₀) (cutIfFull fs crc32c buildVlog e.key) := by
    intro w fresh
    rw [cutIfFull, leaves_get_bind]
    exact Keeps.bind (keeps_check _) (fun t => Keeps.ite (keeps_closeOutput e.key) (Keeps.pure _)) w fresh
  refine Keeps.bind (Keeps.modify fun _ fresh => fresh.congr rfl rfl rfl) fun _ =>
    Keeps.ite (Keeps.pure _) (keeps_noting ?_)
  exact Keeps.bind keeps_openIfNull fun _ => Keeps.bind (keeps_storeEntry e) fun _ => hcut

theorem keeps_closeLast (lastKey : Option InternalKey) :
    Keeps (Fresh n₀ v₀) (closeLast fs crc32c buildVlog lastKey) := by
  intro w fresh
  rw [closeLast, leaves_get_bind]
  refine Keeps.ite (Keeps.bind (keeps_check _) fun key => Keeps.bind (keeps_closeOutput key) fun _ => ?_)
    (Keeps.pure _) w fresh
  exact Keeps.ite (Keeps.modify fun _ h => h.congr rfl rfl rfl) (Keeps.pure _)

variable (fs crc32c buildVlog) in
theorem keeps_body (live : ℕ) (visited : List (Entry Bytes)) :
    Keeps (Fresh n₀ v₀) (body fs crc32c buildVlog live visited) := by
  refine Keeps.bind (Keeps.forM (fun e => keeps_round live e) visited) fun _ =>
    Keeps.bind (keeps_noting (keeps_closeLast _)) fun _ w fresh => ?_
  rw [assertEmpty, leaves_get_bind]
  split
  · exact fresh
  · exact fresh

variable (fs crc32c buildVlog) in
theorem buildWhenCompaction_fresh (fresh : Fresh n₀ v₀ w) (live : ℕ) (visited : List (Entry Bytes)) :
    Fresh n₀ v₀ (buildWhenCompaction fs crc32c buildVlog live visited w).2 := by
  have hbody := keeps_body fs crc32c buildVlog live visited w fresh
  have hreturn : ∀ error (w : Work σ), Fresh n₀ v₀ w → Fresh n₀ v₀ (returnFrom fs crc32c error w).2 := by
    intro error w fresh
    unfold returnFrom
    split
    · exact fresh.congr rfl rfl rfl
    · exact fresh
  unfold Leaves at hbody
  unfold buildWhenCompaction
  split at hbody
  · rename_i w' hw'
    rw [hw']
    exact hreturn _ _ hbody
  · rename_i e w' hw'
    rw [hw']
    cases e with
    | crash => exact hbody
    | returns c => exact hreturn _ _ hbody

end Fresh

/-! ## Failures that are handled -/

section Handled

variable {σ : Type} {fs : CompactionFiles σ} {crc32c : Bytes → ℕ} {c : Cache σ}

/-- **The counters are above the numbers of the tables and of their logs.** -/
structure Cache.Numbered (c : Cache σ) : Prop where
  tables : ∀ i, ∀ f ∈ levelAt c.levels i, f.fileNumber < c.fileno
  vlogs : ∀ i, ∀ f ∈ levelAt c.levels i, f.vlogFileNo < c.lastVlogFileNo

/-- The steps on the file that a step opens. -/
def WorkStep.uses : WorkStep → List WorkStep
  | .createTable _ => [.add, .finish, .syncTable, .closeTable]
  | .openVlog _ => [.appendVlog, .closeVlog]
  | _ => []

/-- **A failure is handled**: it is returned, the tables of every level and the queue of deletions
are as before, no file is created under the number of a table or of its log, and nothing is done
with an output that could not be opened. -/
structure Handled (c : Cache σ) (r : Exit × Cache σ × Steps) : Prop where
  returned : ∃ error, r.1 = .returned (some error)
  levels : r.2.1.levels = c.levels
  tasks : r.2.1.tasks = c.tasks
  kept : ∀ i, ∀ f ∈ levelAt c.levels i, ∀ n o,
    ((.createTable n, o) ∈ r.2.2 → n ≠ f.fileNumber) ∧ ((.openVlog n, o) ∈ r.2.2 → n ≠ f.vlogFileNo)
  unused : ∀ before s o after, r.2.2 = before ++ (s, o) :: after → o ≠ .ok () →
    ∀ p ∈ after, p.1 ∉ s.uses

/-- **If a step of the compaction fails, the failure is handled.** -/
def Handles (fs : CompactionFiles σ) (crc32c : Bytes → ℕ) (live : ℕ) (c : Cache σ)
    (info : CompactInfo Bytes) : Prop :=
  (∃ p ∈ (doCompactionWork fs crc32c live c info).2.2, p.2 ≠ .ok ()) →
    Handled c (doCompactionWork fs crc32c live c info)

/-- **The failures that are handled**: all but that of the creation of a table file, an assertion
that fails, and the silent ones, unless another step fails. -/
structure Meets (steps : Steps) : Prop where
  created : ¬ CreateFailed steps
  sound : ¬ Aborted steps
  heard : (∃ p ∈ steps, p.1.silent = true ∧ p.2 ≠ .ok ()) →
    ∃ p ∈ steps, p.1.silent = false ∧ p.2 ≠ .ok ()

section Steps

variable {steps before : Steps} {s : WorkStep} {code : Code}

/-- No step failed, or only silent ones. -/
theorem meets_iff_of_clean (clean : Clean steps) :
    Meets steps ↔ ∀ p ∈ steps, p.2 = .ok () := by
  constructor
  · intro meets p hp
    by_contra hne
    cases hsilent : p.1.silent with
    | true =>
        obtain ⟨p', hp', hother, hfailed⟩ := meets.heard ⟨p, hp, hsilent, hne⟩
        exact hfailed (clean p' hp' hother)
    | false => exact hne (clean p hp hsilent)
  · intro ok
    refine ⟨?_, ?_, ?_⟩
    · rintro ⟨n, o, hmem, hne⟩
      exact hne (ok _ hmem)
    · rintro ⟨s, hmem⟩
      exact absurd (ok _ hmem) (by simp)
    · rintro ⟨p, hmem, -, hne⟩
      exact absurd (ok p hmem) hne

theorem meets_of_reported (last : steps = before ++ [(s, .fail code)]) (quiet : Quiet before)
    (reporting : s.Reporting) : Meets steps := by
  have hlast : (s, .fail code) ∈ steps := by
    rw [last]
    exact List.mem_append_right _ (List.mem_singleton.mpr rfl)
  have hcases : ∀ p ∈ steps, p ∈ before ∨ p = (s, .fail code) := by
    intro p hp
    rw [last] at hp
    exact (List.mem_append.mp hp).imp id List.mem_singleton.mp
  refine ⟨?_, ?_, fun _ => ⟨_, hlast, reporting.heard, by simp⟩⟩
  · rintro ⟨n, o, hmem, hne⟩
    rcases hcases _ hmem with hbefore | heq
    · rcases quiet _ hbefore with hok | ⟨hkind, -⟩
      · exact hne hok
      · exact absurd hkind (by simp [WorkStep.silent])
    · exact reporting.notCreate n (congrArg Prod.fst heq).symm
  · rintro ⟨s', hmem⟩
    rcases hcases _ hmem with hbefore | heq
    · rcases quiet _ hbefore with hok | ⟨-, hfail⟩
      · exact absurd hok (by simp)
      · exact absurd hfail (by simp)
    · exact absurd (congrArg Prod.snd heq) (by simp)

/-- Behind a failed opening there is nothing. -/
theorem unused_of_reported (last : steps = before ++ [(s, .fail code)]) (quiet : Quiet before)
    {first after : Steps} {s' : WorkStep} {o : Outcome Unit} (split : steps = first ++ (s', o) :: after)
    (failed : o ≠ .ok ()) : ∀ p ∈ after, p.1 ∉ s'.uses := by
  intro p hp
  rcases List.eq_nil_or_concat after with rfl | ⟨after', q, rfl⟩
  · simp at hp
  · have heq : first ++ (s', o) :: after' = before := by
      rw [last, List.concat_eq_append, ← List.cons_append, ← List.append_assoc] at split
      exact (List.append_inj' split rfl).1.symm
    have hmem : (s', o) ∈ before := heq ▸ List.mem_append_right _ List.mem_cons_self
    rcases quiet _ hmem with hok | ⟨rfl | hsilent, -⟩
    · exact absurd hok failed
    · exact List.not_mem_nil
    · cases s' <;> first | exact List.not_mem_nil | cases hsilent

end Steps

theorem idle_start (c : Cache σ) (buildVlog : Bool) : Idle buildVlog (Work.start c) where
  quiet := nofun
  clean := nofun
  file := rfl
  builder := rfl
  vlog := nofun

theorem fresh_start (c : Cache σ) : Fresh c.fileno c.lastVlogFileNo (Work.start c) where
  fileno := le_rfl
  vlogNo := le_rfl
  tables := nofun
  vlogs := nofun

/-- **What `DoCompactionWork` does**: no step, or `BuildWhenCompaction`, whose failure is returned. -/
theorem doCompactionWork_cases (fs : CompactionFiles σ) (crc32c : Bytes → ℕ) (live : ℕ) (c : Cache σ)
    (info : CompactInfo Bytes) {r : Exit × Cache σ × Steps}
    (compacted : doCompactionWork fs crc32c live c info = r) :
    (r.2.2 = [] ∧ r.2.1.fileno = c.fileno ∧ r.2.1.lastVlogFileNo = c.lastVlogFileNo) ∨
      ∃ (w : Work σ) (e : Exit), Ended w.steps e ∧ Fresh c.fileno c.lastVlogFileNo w ∧
      r.2.2 = w.steps ∧ r.2.1.fileno = w.fileno ∧ r.2.1.lastVlogFileNo = w.lastVlogFileNo ∧
      (∀ error, r.1 = .returned (some error) ↔ e = .returned (some error)) ∧
      (∀ error, e = .returned (some error) → r.2.1 = c.after w) := by
  unfold doCompactionWork at compacted
  simp only at compacted
  split at compacted
  · exact .inl (compacted ▸ ⟨rfl, rfl, rfl⟩)
  split at compacted
  · exact .inl (compacted ▸ ⟨rfl, rfl, rfl⟩)
  split at compacted
  · exact .inl (compacted ▸ ⟨rfl, rfl, rfl⟩)
  split at compacted
  · exact .inl (compacted ▸ ⟨rfl, rfl, rfl⟩)
  rename_i visited _
  let buildVlog := decide (kCompactionVLogLevel ≤ info.level + 1)
  have hended := buildWhenCompaction_ended fs crc32c (idle_start c buildVlog) live visited
  have hfresh := buildWhenCompaction_fresh fs crc32c buildVlog (fresh_start c) live visited
  generalize hbuilt : buildWhenCompaction fs crc32c buildVlog live visited (.start c) = built
    at compacted hended hfresh
  obtain ⟨e, w⟩ := built
  -- the installation moves no counter and turns no failure into a success
  have hinstall : ∀ e', (installIfOk c info buildVlog (e', w)).2.fileno = w.fileno ∧
      (installIfOk c info buildVlog (e', w)).2.lastVlogFileNo = w.lastVlogFileNo ∧
      ∀ error, (installIfOk c info buildVlog (e', w)).1 = .returned (some error) ↔
        e' = .returned (some error) := by
    intro e'
    cases e' with
    | crashed => exact ⟨rfl, rfl, fun _ => Iff.rfl⟩
    | returned code =>
        cases code with
        | some code => exact ⟨rfl, rfl, fun _ => Iff.rfl⟩
        | none =>
            simp only [installIfOk]
            split
            · exact ⟨rfl, rfl, fun _ => by simp⟩
            · exact ⟨rfl, rfl, fun _ => Iff.rfl⟩
  obtain ⟨hfileno, hvlogNo, hreturned⟩ := hinstall e
  rw [← compacted]
  refine .inr ⟨w, e, hended, hfresh, rfl, hfileno, hvlogNo, hreturned, ?_⟩
  rintro error rfl
  rfl

/-- **The counters stay above the numbers**, when a compaction fails and its failure is handled. -/
theorem Cache.Numbered.of_handled (numbered : c.Numbered) {live : ℕ} {info : CompactInfo Bytes}
    (handled : Handled c (doCompactionWork fs crc32c live c info)) :
    (doCompactionWork fs crc32c live c info).2.1.Numbered := by
  have hlevels := handled.levels
  generalize hr : doCompactionWork fs crc32c live c info = r at hlevels ⊢
  have hcounters : c.fileno ≤ r.2.1.fileno ∧ c.lastVlogFileNo ≤ r.2.1.lastVlogFileNo := by
    rcases doCompactionWork_cases fs crc32c live c info hr with
      ⟨-, hfileno, hvlogNo⟩ | ⟨w, e, -, hfresh, -, hfileno, hvlogNo, -⟩
    · exact ⟨hfileno.ge, hvlogNo.ge⟩
    · exact ⟨hfileno ▸ hfresh.fileno, hvlogNo ▸ hfresh.vlogNo⟩
  refine ⟨fun i f hf => ?_, fun i f hf => ?_⟩
  · rw [hlevels] at hf
    exact (numbered.tables i f hf).trans_le hcounters.1
  · rw [hlevels] at hf
    exact (numbered.vlogs i f hf).trans_le hcounters.2

/-- **Which failing compactions are handled.** -/
theorem Cache.Numbered.handles_iff (numbered : c.Numbered) (fs : CompactionFiles σ) (crc32c : Bytes → ℕ)
    (live : ℕ) (info : CompactInfo Bytes) :
    Handles fs crc32c live c info ↔ Meets (doCompactionWork fs crc32c live c info).2.2 := by
  unfold Handles
  generalize hr : doCompactionWork fs crc32c live c info = r
  rcases doCompactionWork_cases fs crc32c live c info hr with
    ⟨hsteps, -⟩ | ⟨w, e, hended, hfresh, hsteps, -, -, hreturned, hcache⟩
  · rw [hsteps]
    have clean : Clean [] := nofun
    exact ⟨fun _ => (meets_iff_of_clean clean).mpr nofun, fun _ ⟨p, hp, _⟩ => absurd hp List.not_mem_nil⟩
  · have hnot : (∀ error, e ≠ .returned (some error)) → ¬ Handled c r := by
      rintro hne ⟨⟨error, herror⟩, -⟩
      exact hne error ((hreturned error).mp herror)
    rw [hsteps]
    cases hended with
    | ok quiet clean =>
        rw [meets_iff_of_clean clean]
        refine ⟨fun handles p hp => ?_, fun ok ⟨p, hp, hne⟩ => absurd (ok p hp) hne⟩
        by_contra hne
        exact hnot nofun (handles ⟨p, hp, hne⟩)
    | crashed why =>
        refine ⟨fun handles => ?_, fun meets => absurd why (not_or.mpr ⟨meets.created, meets.sound⟩)⟩
        refine absurd (handles ?_) (hnot nofun)
        rcases why with ⟨n, o, hmem, hne⟩ | ⟨s, hmem⟩
        · exact ⟨_, hmem, hne⟩
        · exact ⟨_, hmem, nofun⟩
    | @reported before s code code' last quiet reporting =>
        refine ⟨fun _ => meets_of_reported last quiet reporting, fun _ _ => ?_⟩
        have hafter := hcache code' rfl
        refine ⟨⟨code', (hreturned code').mpr rfl⟩, hafter ▸ rfl, hafter ▸ rfl, ?_, ?_⟩
        · rw [hsteps]
          refine fun i f hf n o => ⟨fun hmem => ?_, fun hmem => ?_⟩
          · exact ((numbered.tables i f hf).trans_le (hfresh.tables n o hmem)).ne'
          · exact ((numbered.vlogs i f hf).trans_le (hfresh.vlogs n o hmem)).ne'
        · intro first s' o after hsplit hne
          exact unused_of_reported last quiet (hsteps ▸ hsplit) hne

end Handled

/-! ## Two compactions -/

/-- A file layer on which every operation fails. -/
def noFiles : CompactionFiles Unit where
  createVlog _ w := (none, w)
  append _ _ w := (false, w)
  flush _ w := (false, w)
  sync _ w := (false, w)
  close _ w := (false, w)
  createTable _ w := (none, w)
  readValue _ w := (.fail .kIOError, w)
  lost _ := 0

/-- Files can be created and written, but no value can be read. -/
def noValues : CompactionFiles Unit where
  createVlog n w := (some (2 * n + 1), w)
  append _ _ w := (true, w)
  flush _ w := (true, w)
  sync _ w := (true, w)
  close _ w := (true, w)
  createTable n w := (some (2 * n), w)
  readValue _ w := (.fail .kIOError, w)
  lost _ := 0

/-- A table with one entry. -/
def tableOfOne (fileNumber vlogFileNo : ℕ) (key : InternalKey) (value : Bytes) : SSTFile Bytes :=
  ⟨fileNumber, key, key, vlogFileNo, [⟨key, value⟩]⟩

/-- Two tables of level 2, each with a value in the first log. -/
def twoValues : List (SSTFile Bytes) :=
  [tableOfOne 1 0 (.ofWrite [1] 1 .kTypeValue) (VLogEntryInfo.mk 0 0 18).encode,
    tableOfOne 2 0 (.ofWrite [2] 2 .kTypeValue) (VLogEntryInfo.mk 22 0 18).encode]

/-- The value of the first entry cannot be read: the compaction returns the status. -/
theorem handles_unread : Handles noValues (fun _ => 0) 0
    ⟨[[], [], twoValues], [], 3, 1, ()⟩
    ⟨2, twoValues, [], .ofWrite [1] 1 .kTypeValue, .ofWrite [2] 2 .kTypeValue⟩ := by
  have hnumbered : (⟨[[], [], twoValues], [], 3, 1, ()⟩ : Cache Unit).Numbered := by
    refine ⟨fun i f hf => ?_, fun i f hf => ?_⟩ <;>
      rcases i with _ | _ | _ | i <;>
      simp [levelAt, twoValues, tableOfOne] at hf <;>
      rcases hf with rfl | rfl <;> decide
  have hsteps : (doCompactionWork noValues (fun _ => 0) 0
      (⟨[[], [], twoValues], [], 3, 1, ()⟩ : Cache Unit)
      ⟨2, twoValues, [], .ofWrite [1] 1 .kTypeValue, .ofWrite [2] 2 .kTypeValue⟩).2.2
      = [(.createTable 3, .ok ()), (.openVlog 1, .ok ()), (.decode, .ok ()),
        (.readValue, .fail .kIOError)] := rfl
  refine (hnumbered.handles_iff noValues (fun _ => 0) 0 _).mpr ?_
  have quiet : Quiet [(.createTable 3, .ok ()), (.openVlog 1, .ok ()), (.decode, .ok ())] := by
    simp [Quiet]
  rw [hsteps]
  exact meets_of_reported rfl quiet ⟨by simp, rfl⟩

/-- **A file that cannot be created**: the builder is made on a null pointer, and its destructor
uses it. -/
theorem not_handles : ¬ Handles noFiles (fun _ => 0) 0
    ⟨[[tableOfOne 1 0 (.ofWrite [1] 1 .kTypeDeletion) VLogEntryInfo.zero.encode,
      tableOfOne 2 0 (.ofWrite [2] 2 .kTypeDeletion) VLogEntryInfo.zero.encode]], [], 3, 1, ()⟩
    ⟨0, [tableOfOne 1 0 (.ofWrite [1] 1 .kTypeDeletion) VLogEntryInfo.zero.encode,
      tableOfOne 2 0 (.ofWrite [2] 2 .kTypeDeletion) VLogEntryInfo.zero.encode], [],
      .ofWrite [1] 1 .kTypeDeletion, .ofWrite [2] 2 .kTypeDeletion⟩ := by
  intro handles
  obtain ⟨error, herror⟩ := (handles ⟨(.createTable 3, .fail .kIOError), .head _, nofun⟩).returned
  cases herror

/-! ## The store -/

section Store

variable {crc32c : Bytes → ℕ} {σ : Type}

/-- A table with the bytes of its values. -/
def storedTable (f : SSTFile VLogEntryInfo) : SSTFile Bytes :=
  ⟨f.fileNumber, f.smallest, f.largest, f.vlogFileNo, storedEntries f.entries⟩

/-- What `DoCompactionWork` sees of a store. -/
def Cache.ofStore (s : Lsmkv.Store) (world : σ) : Cache σ where
  levels := s.levels.map (List.map storedTable)
  tasks := s.tasks
  fileno := s.fileno
  lastVlogFileNo := s.lastVlogFileNo
  world := world

/-- **In every store that a run reaches** the counters are above the numbers. -/
theorem numbered_of_reachable {cond : Lsmkv.Machine → Lsmkv.Action → Prop} {m : Lsmkv.Machine}
    (reached : Lsmkv.Machine.Reachable crc32c cond m) (world : σ) :
    (Cache.ofStore m.store world).Numbered := by
  have howned := vlogsOwned_of_reachable reached
  have htagged := tagged_of_reachable reached
  have hnumbered := (seqOrdered_of_reachable reached).numbered
  have hlevel : ∀ i, levelAt (m.store.levels.map (List.map storedTable)) i
      = (levelAt m.store.levels i).map storedTable := by
    intro i
    simp only [levelAt, List.getD_eq_getElem?_getD, List.getElem?_map]
    cases m.store.levels[i]? <;> rfl
  refine ⟨fun i f hf => ?_, fun i f hf => ?_⟩
  · obtain ⟨g, hg, rfl⟩ := List.mem_map.mp (hlevel i ▸ hf)
    exact hnumbered.below i g hg
  · obtain ⟨g, hg, rfl⟩ := List.mem_map.mp (hlevel i ▸ hf)
    rcases lt_or_ge i kCompactionVLogLevel with hshallow | hdeep
    · show g.vlogFileNo < m.store.lastVlogFileNo
      rw [htagged.shallow i hshallow g hg]
      exact (Nat.zero_le _).trans_lt howned.open_lt
    · exact howned.owned_lt i hdeep g hg

end Store

end Lsmkv.Fallible
