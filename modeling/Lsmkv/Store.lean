import Lsmkv.LevelOrder
import Lsmkv.TableFiles

/-!
# The store

`KVStore` (`src/include/kvstore.h`, `src/kvstore.cc`) with what it is made of: the
counters of `Version`, the memtable and the immutable memtable, the value log it
appends to, the levels, the directory, the cache of open value logs of `VLogReader`, and
the deletion tasks that compactions have submitted to the executor and that have not run.

Each operation is a function on `Store`.  The foreground operations run under
`rwlock_`, so a call is one step; `Prepare`, which gives the lock away while it waits, is
modelled with its steps in `Lsmkv.Threads`.  The background work is modelled by the
steps that other threads can see between: the hand-over of the memtable, the flush, the
release of the immutable memtable and the compaction of one level.

The file layer stores what is appended, in order; of a table, if it is one that reaches the
disk (`TableKept`).
-/

namespace Lsmkv

open ByteCode Files

/-- `KVStore`. -/
structure Store where
  lastSequence : ℕ
  lastLivingSequence : ℕ
  fileno : ℕ
  lastVlogFileNo : ℕ
  mem : MemTable
  imm : Option MemTable
  vlog : VLogBuilder
  vlogs : VLogDir
  levels : List (Level VLogEntryInfo)
  /-- The table files that exist. -/
  sstFiles : ℕ → Bool
  /-- The files `VLogReader` keeps open, by number, the last used first. -/
  handles : List (ℕ × ℕ)
  /-- Deletion tasks that have not run: table files and value logs. -/
  tasks : List (List ℕ × List ℕ)

/-- What a writer asks for: `put` of a value or, with the empty value, `del`. -/
structure Write where
  key : Bytes
  type : ValueType
  value : Bytes
  deriving DecidableEq, Repr

/-! ## The cache of open value logs -/

/-- The capacity of `lru_`. -/
def lruCapacity : ℕ := 5

/-- `Lru_Cache::Put`. -/
def lruPut (handles : List (ℕ × ℕ)) (fileNo inode : ℕ) : List (ℕ × ℕ) :=
  let rest := handles.filter fun h => h.1 != fileNo
  (fileNo, inode) :: (if rest.length = lruCapacity then rest.dropLast else rest)

/-- `Lru_Cache::Get`, on a number that is present. -/
def lruTouch (handles : List (ℕ × ℕ)) (fileNo inode : ℕ) : List (ℕ × ℕ) :=
  (fileNo, inode) :: handles.filter fun h => h.1 != fileNo

/-! ## Reading the levels -/

/-- `SSTFileMeta::InRange(key)`, by user keys. -/
def SSTFile.mayHold (f : SSTFile VLogEntryInfo) (u : Bytes) : Bool :=
  decide (u ≤ f.largest.userKey) && decide (f.smallest.userKey ≤ u)

section Levels

variable (sstFiles : ℕ → Bool) (query : InternalKey)

/-- `ReadOne`, with the opening of the file. -/
def openAndRead (f : SSTFile VLogEntryInfo) : Outcome VLogEntryInfo :=
  if sstFiles f.fileNumber then readTable f query else .fail .kIOError

/-- `ReadBatch`: the first answer other than `NotFound`, in the given order. -/
def readBatch : List (SSTFile VLogEntryInfo) → Outcome VLogEntryInfo
  | [] => .fail .kNotFound
  | f :: fs =>
      match openAndRead sstFiles query f with
      | .fail .kNotFound => readBatch fs
      | r => r

/-- The loop of `LevelCache::get` over the levels from 1 on. -/
def getDeeper : List (Level VLogEntryInfo) → Outcome VLogEntryInfo → Outcome VLogEntryInfo
  | [], s => s
  | level :: levels, s =>
      let tmp := level.filter fun f => f.mayHold query.userKey
      let s := if tmp.isEmpty then s else readBatch sstFiles query tmp
      match s with
      | .ok info => .ok info
      | s => getDeeper levels s

/-- `LevelCache::get`.  `cache[0]` of an empty vector is a fault. -/
def getLevels : List (Level VLogEntryInfo) → Outcome VLogEntryInfo
  | [] => .fault
  | level0 :: levels =>
      match readBatch sstFiles query (level0.reverse.filter fun f => f.mayHold query.userKey) with
      | .fail .kNotFound => getDeeper sstFiles query levels (.fail .kNotFound)
      | s => s

end Levels

/-- `BuildTable` of the entries of a memtable; an empty one is refused.  Its assertion on the
size of the file fails for a table that does not reach the disk. -/
def buildTable (fileNumber : ℕ) : List (Entry VLogEntryInfo) → Outcome (SSTFile VLogEntryInfo)
  | [] => .fail .kInvalidArgument
  | e :: es =>
      let largest := ((e :: es).getLast (List.cons_ne_nil _ _)).key
      if TableKept largest (e :: es) then .ok ⟨fileNumber, e.key, largest, 0, e :: es⟩ else .fault

namespace Store

/-! ## Construction -/

/-- The constructor, on an empty directory: the store opens value log 0, and `LevelCache()`
makes eight levels. -/
def new : Store :=
  let (vlog, vlogs) := VLogBuilder.new.openFile Dir.empty 0
  { lastSequence := 0
    lastLivingSequence := 0
    fileno := 0
    lastVlogFileNo := 1
    mem := .new
    imm := none
    vlog := vlog
    vlogs := vlogs
    levels := List.replicate 8 []
    sstFiles := fun _ => false
    handles := []
    tasks := [] }

@[simp] theorem levelAt_new (i : ℕ) : levelAt new.levels i = [] := levelAt_replicate 8 i

variable (crc32c : Bytes → ℕ)

/-! ## Writing -/

/-- The change of the value log in `WriteImpl`, when it is full. -/
def rotateVlog (s : Store) : Store :=
  let (vlog, vlogs) := s.vlog.close crc32c s.vlogs
  let (vlog, vlogs) := vlog.openFile vlogs s.lastVlogFileNo
  { s with vlog := vlog, vlogs := vlogs, lastVlogFileNo := s.lastVlogFileNo + 1 }

/-- `WriteImpl(key, val, type)`.  `garbage` is what the record of a deletion holds in the
place of a location, and `height` the height drawn for its node. -/
def writeImpl (s : Store) (w : Write) (garbage : VLogEntryInfo) (height : ℕ) : Outcome Store := do
  let key := InternalKey.ofWrite w.key s.lastSequence w.type
  let full ← s.vlog.full w.value.length
  let s := if full then s.rotateVlog crc32c else s
  let (info, vlog, vlogs) ← s.vlog.append crc32c s.vlogs key w.value
  let value := if w.type = .kTypeDeletion then garbage else info
  .ok { s with
    vlog := vlog
    vlogs := vlogs
    mem := s.mem.put key value height
    lastSequence := s.lastSequence + 1 }

/-! ## Reading -/

/-- `VLogReader::Read`: open the value log, through the cache, and read the record. -/
def readValue (s : Store) (info : VLogEntryInfo) : Outcome Bytes × Store :=
  match s.handles.find? fun h => h.1 == info.fileNo with
  | some (_, inode) =>
      (vlogRead crc32c (some s.lastLivingSequence) (s.vlogs.data inode) info,
        { s with handles := lruTouch s.handles info.fileNo inode })
  | none =>
      match s.vlogs.inode info.fileNo with
      | none => (.fail .kIOError, s)
      | some inode =>
          (vlogRead crc32c (some s.lastLivingSequence) (s.vlogs.data inode) info,
            { s with handles := lruPut s.handles info.fileNo inode })

/-- The end of `GetImpl`: what was found is read from the value log. -/
def resolve (s : Store) : Outcome VLogEntryInfo → Outcome Bytes × Store
  | .ok info => if info.length = 0 then (.fail .kNotFound, s) else s.readValue crc32c info
  | .fail c => (.fail c, s)
  | .fault => (.fault, s)

/-- `GetImpl(key, val)`.  A hit in `imm_` returns the status with an empty value. -/
def getImpl (s : Store) (key : Bytes) : Outcome Bytes × Store :=
  let query := queryKey s.lastSequence key
  match s.mem.get query with
  | some found => s.resolve crc32c found
  | none =>
      match s.imm.bind fun imm => imm.get query with
      | some found => (found >>= fun _ => .ok [], s)
      | none =>
          if s.levels.isEmpty then (.fail .kNotFound, s)
          else s.resolve crc32c (getLevels s.sstFiles query s.levels)

/-- `del(key)`, when `Prepare` lets it write: only a key that is found is deleted. -/
def del (s : Store) (key : Bytes) (garbage : VLogEntryInfo) (height : ℕ) : Outcome Store :=
  match s.getImpl crc32c key with
  | (.ok _, s) => s.writeImpl crc32c ⟨key, .kTypeDeletion, []⟩ garbage height
  | (.fail c, _) => .fail c
  | (.fault, _) => .fault

/-- `put(key, val)`, when `Prepare` lets it write. -/
def put (s : Store) (key val : Bytes) (height : ℕ) : Outcome Store :=
  s.writeImpl crc32c ⟨key, .kTypeValue, val⟩ .zero height

/-! ## Background work -/

/-- `MEM_MAX_SIZE`. -/
def memMaxSize : ℕ := 24544

/-- The hand-over in `Prepare`, with its assertion. -/
def handOver (s : Store) : Outcome Store :=
  match s.imm with
  | some _ => .fault
  | none => .ok { s with imm := some s.mem, mem := .new }

/-- `WriteLevel0Table(imm)`. -/
def writeLevel0Table (s : Store) (imm : MemTable) : Outcome Store := do
  let table ← buildTable s.fileno imm.entries
  .ok { s with
    fileno := s.fileno + 1
    levels := setLevel s.levels 0 (emplace table (levelAt s.levels 0))
    sstFiles := Function.update s.sstFiles s.fileno true }

/-- `imm_.store(nullptr)` at the end of `CompactMemTable`. -/
def clearImm (s : Store) : Store := { s with imm := none }

/-- The store after a compaction.  The deletion of the inputs is left to the executor. -/
def compacted (s : Store) (r : CompactionResult) : Store :=
  { s with
    levels := r.levels
    fileno := r.fileno
    lastVlogFileNo := r.work.lastVlogFileNo
    vlogs := r.work.vlogs
    sstFiles := fun n => s.sstFiles n || decide (s.fileno ≤ n ∧ n < r.fileno)
    tasks := if r.rmSstFiles.isEmpty then s.tasks
      else s.tasks ++ [(r.rmSstFiles, r.rmVlogFiles)] }

/-- One round of `CompactSSTFile`: `PickCompaction` and `DoCompactionWork`. -/
def compactLevel (s : Store) (level : ℕ) : Outcome Store :=
  match pickCompaction s.levels level with
  | none => .ok s
  | some info => do
      let r ← doCompactionWork crc32c s.lastLivingSequence s.levels s.fileno
        ⟨s.lastVlogFileNo, s.vlogs, .new⟩ info
      .ok (s.compacted r)

/-- A deletion task: `rmfile` of each table and each value log. -/
def deleteFiles (s : Store) (task : List ℕ × List ℕ) : Store :=
  { s with
    sstFiles := fun n => s.sstFiles n && !task.1.contains n
    vlogs := task.2.foldl Dir.unlink s.vlogs }

/-- The executor runs one of the tasks. -/
def runTask (s : Store) (i : ℕ) : Store :=
  match s.tasks[i]? with
  | none => s
  | some task => { s.deleteFiles task with tasks := s.tasks.eraseIdx i }

/-! ## Expiry and reset -/

/-- `ExpireAt(seq)`. -/
def expireAt (s : Store) (seq : ℕ) : Outcome Store :=
  if s.lastSequence < seq then .fail .kCorruption
  else if seq < s.lastLivingSequence then .ok s
  else .ok { s with lastLivingSequence := seq + 1 }

/-- `reset()`.  `rmfiles` removes every file; `vlog_->reset()` closes the value log, whose
file has no name any more, and value log 0 is opened again. -/
def reset (s : Store) : Store :=
  let (vlog, vlogs) := s.vlog.close crc32c s.vlogs.unlinkAll
  let (vlog, vlogs) := vlog.openFile vlogs 0
  { s with
    lastSequence := 0
    fileno := 0
    lastVlogFileNo := 1
    mem := .new
    imm := none
    vlog := vlog
    vlogs := vlogs
    levels := []
    sstFiles := fun _ => false }

end Store

end Lsmkv
