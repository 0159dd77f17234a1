import Lsmkv.LoserTree
import Lsmkv.VLog

/-!
# Merging tables

`LevelCache::BuildWhenCompaction` (`src/levelcache.cpp`) merges the tables under
compaction with a loser tree, drops expired entries, and writes the rest into output
tables that are cut when they reach `sst_file_size_`.  In the levels from
`kCompactionVLogLevel` on it also copies every value into a value log of the output
table.

The work has two halves that do not look at each other.  Which entries go into which
output table depends on the keys alone (`Build`, `Build.step`): every value of a table
has sixteen bytes.  What is stored under a key depends on the value logs alone
(`VLogWork`).  `buildStep` follows the source with both halves, and
`buildWhenCompaction_shape` says that the first half can be studied by itself, over
any type of payloads.
-/

namespace Lsmkv

open ByteCode Files Merging

/-! ## Tables -/

/-- A table: what `SSTFileMeta` says about it and the entries of its file. -/
structure SSTFile (β : Type) where
  fileNumber : ℕ
  smallest : InternalKey
  largest : InternalKey
  vlogFileNo : ℕ
  entries : List (Entry β)

/-- `Option::sst_file_size_`. -/
def sstFileSize : ℕ := 32768

/-- `ApproximateFileSize` of a table builder that was given the entries.  Every value
has sixteen bytes, so the size is a matter of the keys. -/
def approximateSize {β : Type} (es : List (Entry β)) : ℕ :=
  (TableBuilder.new.addAll (fun _ => 0) (es.map (Entry.map fun _ => List.replicate 16 0)))
    |>.approximateFileSize

/-! ## The output tables -/

/-- The output side of a compaction: the number the next table gets, the smallest key
of the table being collected (`meta`), its entries, and the finished tables.  The
output file is open exactly while `out` is not empty. -/
structure Build (β : Type) where
  fileno : ℕ
  smallest : Option InternalKey
  out : List (Entry β)
  newFiles : List (SSTFile β)

namespace Build

variable {β : Type}

/-- Nothing collected yet. -/
def start (fileno : ℕ) : Build β := ⟨fileno, none, [], []⟩

/-- `if (!meta.has_value())`: the first key seen is the smallest, expired or not. -/
def see (b : Build β) (key : InternalKey) : Build β :=
  { b with smallest := some (b.smallest.getD key) }

/-- Finish the output table. -/
def close (b : Build β) (vlogFileNo : ℕ) (largest : InternalKey) : Build β where
  fileno := b.fileno + 1
  smallest := none
  out := []
  newFiles := b.newFiles ++
    [⟨b.fileno, b.smallest.getD largest, largest, vlogFileNo, b.out⟩]

/-- Add an entry to the output table and cut the table when it is large enough.
`vlogFileNo` is the value log that a finished table records. -/
def add (b : Build β) (vlogFileNo : ℕ) (e : Entry β) : Build β :=
  let b := { b with out := b.out ++ [e] }
  if sstFileSize ≤ approximateSize b.out then b.close vlogFileNo e.key else b

/-- One visited entry, as far as the output tables are concerned. -/
def step (live : ℕ) (b : Build β) (e : Entry β) : Build β :=
  let b := b.see e.key
  if e.key.seq < live then b else b.add 0 e

theorem step_expired {live : ℕ} {b : Build β} {e : Entry β} (h : e.key.seq < live) :
    b.step live e = b.see e.key := if_pos h

theorem step_live {live : ℕ} {b : Build β} {e : Entry β} (h : ¬ e.key.seq < live) :
    b.step live e = (b.see e.key).add 0 e := if_neg h

/-- What follows the loop: the last table, with the last key visited. -/
def finish (b : Build β) (vlogFileNo : ℕ) (lastKey : Option InternalKey) : Build β :=
  match lastKey with
  | some key => if b.out.isEmpty then b else b.close vlogFileNo key
  | none => b

end Build

/-! ## The value logs of the output -/

/-- The value log side of a compaction. -/
structure VLogWork where
  lastVlogFileNo : ℕ
  vlogs : VLogDir
  builder : VLogBuilder

namespace VLogWork

/-- `NewVLogFileNumber` and `Open`, when an output table is opened. -/
def openNext (w : VLogWork) : VLogWork :=
  let (builder, vlogs) := w.builder.openFile w.vlogs w.lastVlogFileNo
  ⟨w.lastVlogFileNo + 1, vlogs, builder⟩

/-- `Close`, when an output table is finished. -/
def close (crc32c : Bytes → ℕ) (w : VLogWork) : VLogWork :=
  let (builder, vlogs) := w.builder.close crc32c w.vlogs
  { w with vlogs := vlogs, builder := builder }

/-- The value stored for an entry: a tombstone gets zeros; a value keeps its location,
or is copied into the value log of the output table. -/
def rewrite (crc32c : Bytes → ℕ) (buildVlog : Bool) (w : VLogWork) (e : Entry VLogEntryInfo) :
    Outcome (VLogEntryInfo × VLogWork) :=
  if e.key.type ≠ .kTypeValue then .ok (.zero, w)
  else if buildVlog then do
    let data ← readVLog crc32c none w.vlogs e.value
    let (info, builder, vlogs) ← w.builder.append crc32c w.vlogs e.key data
    .ok (info, { w with builder := builder, vlogs := vlogs })
  else .ok (e.value, w)

end VLogWork

/-! ## `BuildWhenCompaction` -/

section

variable (crc32c : Bytes → ℕ) (buildVlog : Bool) (live : ℕ)

/-- One round of the loop of `BuildWhenCompaction`. -/
def buildStep (b : Build VLogEntryInfo) (w : VLogWork) (e : Entry VLogEntryInfo) :
    Outcome (Build VLogEntryInfo × VLogWork) :=
  let b := b.see e.key
  if e.key.seq < live then .ok (b, w)
  else do
    let w := if b.out.isEmpty && buildVlog then w.openNext else w
    let (value, w) ← w.rewrite crc32c buildVlog e
    let b := b.add (if buildVlog then w.builder.fileNo else 0) ⟨e.key, value⟩
    let w := if b.out.isEmpty && buildVlog then w.close crc32c else w
    .ok (b, w)

/-- The loop over the entries in the order the loser tree visits them. -/
def buildLoop : List (Entry VLogEntryInfo) → Build VLogEntryInfo → VLogWork →
    Outcome (Build VLogEntryInfo × VLogWork)
  | [], b, w => .ok (b, w)
  | e :: es, b, w => do
      let (b, w) ← buildStep crc32c buildVlog live b w e
      buildLoop es b w

/-- `BuildWhenCompaction(wait_to_merge, new_files, build_vlog)`.  `fileno` is the
counter of table files, `live` is `LastLivingSequence`. -/
def buildWhenCompaction (fileno : ℕ) (w : VLogWork) (inputs : List (List (Entry VLogEntryInfo))) :
    Outcome (Build VLogEntryInfo × VLogWork) := do
  let visited ← Outcome.ofOption (LoserTree.visit (fun e => e.key.encode) inputs)
  let (b, w) ← buildLoop crc32c buildVlog live visited (.start fileno) w
  let last := visited.getLast?.map (·.key)
  let b' := b.finish (if buildVlog then w.builder.fileNo else 0) last
  let w := if !b.out.isEmpty && buildVlog then w.close crc32c else w
  .ok (b', w)

end

/-! ## Views

A view keeps the keys of entries, replaces their payloads, and forgets the value log
numbers of tables.  The output side of a compaction commutes with every view. -/

section View

variable {β γ : Type} (f : Entry β → γ)

/-- An entry with its payload seen through `f`. -/
def Entry.view (e : Entry β) : Entry γ := ⟨e.key, f e⟩

/-- A table with its payloads seen through `f`. -/
def SSTFile.view (t : SSTFile β) : SSTFile γ :=
  ⟨t.fileNumber, t.smallest, t.largest, 0, t.entries.map (Entry.view f)⟩

/-- The output side of a compaction with its payloads seen through `f`. -/
def Build.view (b : Build β) : Build γ :=
  ⟨b.fileno, b.smallest, b.out.map (Entry.view f), b.newFiles.map (SSTFile.view f)⟩

@[simp] theorem Entry.view_key (e : Entry β) : (e.view f).key = e.key := rfl

@[simp] theorem approximateSize_view (es : List (Entry β)) :
    approximateSize (es.map (Entry.view f)) = approximateSize es := by
  simp only [approximateSize, List.map_map]
  rfl

theorem Build.view_add (b : Build β) (n : ℕ) (e : Entry β) :
    (b.add n e).view f = (b.view f).add 0 (e.view f) := by
  have hsize : approximateSize (b.out.map (Entry.view f) ++ [e.view f])
      = approximateSize (b.out ++ [e]) := by
    rw [← approximateSize_view f (b.out ++ [e]), List.map_append, List.map_singleton]
  simp only [Build.add, Build.view, hsize]
  split
  · simp [Build.close, SSTFile.view]
  · simp

theorem Build.view_step (live : ℕ) (b : Build β) (e : Entry β) :
    (b.step live e).view f = (b.view f).step live (e.view f) := by
  by_cases hexp : e.key.seq < live
  · rw [Build.step_expired hexp, Build.step_expired (e := e.view f) hexp]
    rfl
  · rw [Build.step_live hexp, Build.step_live (e := e.view f) hexp, Build.view_add]
    rfl

theorem Build.view_finish (b : Build β) (n : ℕ) (key : Option InternalKey) :
    (b.finish n key).view f = (b.view f).finish 0 key := by
  cases key with
  | none => rfl
  | some key =>
      simp only [Build.finish, Build.view, List.isEmpty_map]
      split
      · rfl
      · simp [Build.close, SSTFile.view]

/-- The shape of a state: keys, numbers and ranges. -/
def Build.shape (b : Build β) : Build Unit := b.view fun _ => ()

/-- The loop of a compaction on the output side. -/
def Build.run (live : ℕ) (b : Build β) (es : List (Entry β)) : Build β :=
  es.foldl (Build.step live) b

theorem Build.view_run (live : ℕ) (b : Build β) (es : List (Entry β)) :
    (b.run live es).view f = (b.view f).run live (es.map (Entry.view f)) := by
  induction es generalizing b with
  | nil => rfl
  | cons e es ih =>
      simp only [Build.run, List.foldl_cons, List.map_cons] at ih ⊢
      rw [ih, Build.view_step]

/-- The tables that a compaction makes of the visited entries. -/
def mergedTables (live fileno : ℕ) (visited : List (Entry β)) : Build β :=
  ((Build.start fileno).run live visited).finish 0 (visited.getLast?.map (·.key))

theorem view_mergedTables (live fileno : ℕ) (visited : List (Entry β)) :
    (mergedTables live fileno visited).view f
      = mergedTables live fileno (visited.map (Entry.view f)) := by
  rw [mergedTables, Build.view_finish, Build.view_run, mergedTables, List.getLast?_map,
    Option.map_map]
  rfl

end View

section Shape

variable {crc32c : Bytes → ℕ} {buildVlog : Bool} {live : ℕ}

/-- One round writes the key that the output side writes. -/
theorem buildStep_shape {b b' : Build VLogEntryInfo} {w w' : VLogWork} {e : Entry VLogEntryInfo}
    (h : buildStep crc32c buildVlog live b w e = .ok (b', w')) :
    b'.shape = b.shape.step live (e.view fun _ => ()) := by
  by_cases hexp : e.key.seq < live
  · simp only [buildStep, if_pos hexp, Outcome.ok.injEq, Prod.mk.injEq] at h
    rw [← h.1, Build.step_expired (e := e.view fun _ => ()) hexp]
    rfl
  · simp only [buildStep, if_neg hexp] at h
    obtain ⟨r, -, hok⟩ := Outcome.bind_eq_ok.mp h
    simp only [Outcome.ok.injEq, Prod.mk.injEq] at hok
    rw [← hok.1, Build.shape, Build.view_add, Build.step_live (e := e.view fun _ => ()) hexp]
    rfl

theorem buildLoop_shape {es : List (Entry VLogEntryInfo)} {b b' : Build VLogEntryInfo}
    {w w' : VLogWork} (h : buildLoop crc32c buildVlog live es b w = .ok (b', w')) :
    b'.shape = b.shape.run live (es.map (Entry.view fun _ => ())) := by
  induction es generalizing b w with
  | nil =>
      simp only [buildLoop, Outcome.ok.injEq, Prod.mk.injEq] at h
      rw [← h.1]
      rfl
  | cons e es ih =>
      rw [buildLoop] at h
      obtain ⟨r, hstep, hrest⟩ := Outcome.bind_eq_ok.mp h
      rw [ih hrest, buildStep_shape hstep]
      rfl

/-- **Keys, numbers and ranges of the output tables** are those of the output side run
over the visited entries. -/
theorem buildWhenCompaction_shape {fileno : ℕ} {inputs : List (List (Entry VLogEntryInfo))}
    {b : Build VLogEntryInfo} {w w' : VLogWork} {visited : List (Entry VLogEntryInfo)}
    (order : LoserTree.visit (fun e => e.key.encode) inputs = some visited)
    (h : buildWhenCompaction crc32c buildVlog live fileno w inputs = .ok (b, w')) :
    b.shape = (mergedTables live fileno visited).shape := by
  simp only [buildWhenCompaction, order, Outcome.ofOption_some, Outcome.ok_bind] at h
  obtain ⟨r, hloop, hok⟩ := Outcome.bind_eq_ok.mp h
  simp only [Outcome.ok.injEq, Prod.mk.injEq] at hok
  have hshape := buildLoop_shape hloop
  rw [Build.shape, Build.shape] at hshape
  rw [← hok.1, Build.shape, Build.view_finish, hshape, Build.shape, view_mergedTables,
    mergedTables, List.getLast?_map, Option.map_map]
  rfl

end Shape

/-! ## The output tables of a run -/

section Written

variable {β : Type} {live fileno : ℕ}

/-- Everything written so far, in order. -/
def Build.written (b : Build β) : List (Entry β) := b.newFiles.flatMap (·.entries) ++ b.out

theorem Build.written_add (b : Build β) (n : ℕ) (e : Entry β) :
    (b.add n e).written = b.written ++ [e] := by
  simp only [Build.add]
  split
  · simp [Build.written, Build.close]
  · simp [Build.written]

theorem Build.written_step (b : Build β) (e : Entry β) :
    (b.step live e).written = b.written ++ [e].filter fun e => decide (live ≤ e.key.seq) := by
  simp only [Build.step]
  split
  · rename_i hexp
    simp [Build.written, Build.see, not_le.mpr hexp]
  · rename_i hexp
    rw [Build.written_add]
    simp [Build.written, Build.see, not_lt.mp hexp]

theorem Build.written_run (b : Build β) (es : List (Entry β)) :
    (b.run live es).written = b.written ++ es.filter fun e => decide (live ≤ e.key.seq) := by
  induction es generalizing b with
  | nil => simp [Build.run]
  | cons e es ih =>
      have hcons : (b.run live (e :: es)).written = ((b.step live e).run live es).written := rfl
      rw [hcons, ih, Build.written_step, List.append_assoc, ← List.filter_append]
      rfl

theorem Build.written_finish (b : Build β) (n : ℕ) (key : Option InternalKey) :
    (b.finish n key).written = b.written := by
  cases key with
  | none => rfl
  | some key =>
      simp only [Build.finish]
      split
      · rfl
      · simp [Build.written, Build.close]

theorem Build.out_finish (b : Build β) (n : ℕ) (key : InternalKey) :
    (b.finish n (some key)).out = [] := by
  simp only [Build.finish]
  split
  · simp_all
  · rfl

theorem mergedTables_out (live fileno : ℕ) (visited : List (Entry β)) :
    (mergedTables live fileno visited).out = [] := by
  cases hlast : visited.getLast? with
  | none =>
      rw [List.getLast?_eq_none_iff] at hlast
      subst hlast
      rfl
  | some e =>
      rw [mergedTables, hlast]
      exact Build.out_finish _ _ _

/-- **The output tables hold exactly the visited entries that are not expired, in the
order they were visited**, wherever the output was cut. -/
theorem mergedTables_entries (live fileno : ℕ) (visited : List (Entry β)) :
    (mergedTables live fileno visited).newFiles.flatMap (·.entries)
      = visited.filter fun e => decide (live ≤ e.key.seq) := by
  have hout := mergedTables_out live fileno visited
  have hwritten : (mergedTables live fileno visited).written
      = visited.filter fun e => decide (live ≤ e.key.seq) := by
    rw [mergedTables, Build.written_finish, Build.written_run]
    rfl
  rwa [Build.written, hout, List.append_nil] at hwritten

end Written

/-! ## Numbers and ranges of the output tables -/

section Tables

variable {β γ : Type} {live start : ℕ}

/-- The recorded range of a table holds all its entries. -/
def SSTFile.Covers (t : SSTFile β) : Prop :=
  ∀ e ∈ t.entries, t.smallest ≤ e.key ∧ e.key ≤ t.largest

/-- The finished tables are numbered one after the other, and none is empty. -/
structure Build.Consecutive (start : ℕ) (b : Build β) : Prop where
  next : b.fileno = start + b.newFiles.length
  numbers : b.newFiles.map (·.fileNumber) = List.range' start b.newFiles.length
  nonempty : ∀ t ∈ b.newFiles, t.entries ≠ []

theorem Build.Consecutive.close {b : Build β} (h : b.Consecutive start) (ne : b.out ≠ []) (n : ℕ)
    (key : InternalKey) : (b.close n key).Consecutive start := by
  refine ⟨?_, ?_, ?_⟩
  · simp only [Build.close, h.next, List.length_append, List.length_singleton]
    omega
  · simp [Build.close, h.numbers, h.next, List.range'_concat]
  · intro t ht
    rcases List.mem_append.mp ht with ht | ht
    · exact h.nonempty t ht
    · rwa [List.mem_singleton.mp ht]

theorem Build.Consecutive.add {b : Build β} (h : b.Consecutive start) (n : ℕ) (e : Entry β) :
    (b.add n e).Consecutive start := by
  have hpush : Build.Consecutive start { b with out := b.out ++ [e] } :=
    ⟨h.next, h.numbers, h.nonempty⟩
  simp only [Build.add]
  split
  · exact hpush.close (by simp) n e.key
  · exact hpush

theorem Build.Consecutive.run {b : Build β} (h : b.Consecutive start) (live : ℕ)
    (es : List (Entry β)) :
    (b.run live es).Consecutive start := by
  induction es generalizing b with
  | nil => exact h
  | cons e es ih =>
      refine ih ?_
      have hsee : (b.see e.key).Consecutive start := ⟨h.next, h.numbers, h.nonempty⟩
      simp only [Build.step]
      split
      · exact hsee
      · exact hsee.add 0 e

/-- **The output tables are numbered one after the other, and none is empty.** -/
theorem consecutive_mergedTables (fileno : ℕ) (visited : List (Entry β)) :
    (mergedTables live fileno visited).Consecutive fileno := by
  have hstart : (Build.start fileno : Build β).Consecutive fileno := ⟨rfl, rfl, by simp [Build.start]⟩
  have hrun := hstart.run live visited
  rw [mergedTables]
  cases visited.getLast?.map (·.key) with
  | none => exact hrun
  | some key =>
      simp only [Build.finish]
      split
      · exact hrun
      · rename_i hout
        exact hrun.close (by simpa using hout) 0 key

/-- Over visited entries in order, ranges hold what they should.  `seen` are the entries
visited so far. -/
structure Build.Ranged (b : Build β) (seen : List (Entry β)) : Prop where
  covers : ∀ t ∈ b.newFiles, t.Covers
  out_seen : ∀ e ∈ b.out, e ∈ seen
  smallest_le : ∀ e ∈ b.out, ∃ key, b.smallest = some key ∧ key ≤ e.key
  smallest_seen : ∀ key, b.smallest = some key → ∃ e ∈ seen, e.key = key

theorem Build.Ranged.close {b : Build β} {seen : List (Entry β)} (h : b.Ranged seen) (n : ℕ)
    {key : InternalKey} (last : ∀ e ∈ seen, e.key ≤ key) : (b.close n key).Ranged seen := by
  refine ⟨fun t ht => ?_, by simp [Build.close], by simp [Build.close], by simp [Build.close]⟩
  rcases List.mem_append.mp ht with ht | ht
  · exact h.covers t ht
  · rw [List.mem_singleton.mp ht]
    intro e he
    obtain ⟨small, hsmall, hle⟩ := h.smallest_le e he
    simp only [hsmall, Option.getD_some]
    exact ⟨hle, last e (h.out_seen e he)⟩

theorem Build.Ranged.see {b : Build β} {seen : List (Entry β)} (h : b.Ranged seen) (e : Entry β) :
    (b.see e.key).Ranged (seen ++ [e]) := by
  refine ⟨h.covers, fun d hd => List.mem_append_left _ (h.out_seen d hd), fun d hd => ?_, ?_⟩
  · obtain ⟨key, hkey, hle⟩ := h.smallest_le d hd
    exact ⟨key, by simp [Build.see, hkey], hle⟩
  · intro key hkey
    cases hb : b.smallest with
    | none => exact ⟨e, by simp, by simpa [Build.see, hb] using hkey⟩
    | some small =>
        obtain ⟨d, hd, hdkey⟩ := h.smallest_seen small hb
        obtain rfl : small = key := by simpa [Build.see, hb] using hkey
        exact ⟨d, List.mem_append_left _ hd, hdkey⟩

theorem Build.Ranged.step {b : Build β} {seen : List (Entry β)} {e : Entry β} (h : b.Ranged seen)
    (live : ℕ) (last : ∀ d ∈ seen, d.key < e.key) : (b.step live e).Ranged (seen ++ [e]) := by
  have hsee := h.see e
  have hlast : ∀ d ∈ seen ++ [e], d.key ≤ e.key := by
    intro d hd
    rcases List.mem_append.mp hd with hd | hd
    · exact (last d hd).le
    · rw [List.mem_singleton.mp hd]
  simp only [Build.step]
  split
  · exact hsee
  · have hpush : Build.Ranged { b.see e.key with out := (b.see e.key).out ++ [e] } (seen ++ [e]) := by
      refine ⟨hsee.covers, fun d hd => ?_, fun d hd => ?_, hsee.smallest_seen⟩
      · rcases List.mem_append.mp hd with hd | hd
        · exact hsee.out_seen d hd
        · rw [List.mem_singleton.mp hd]
          simp
      · rcases List.mem_append.mp hd with hd | hd
        · exact hsee.smallest_le d hd
        · rw [List.mem_singleton.mp hd]
          refine ⟨_, rfl, ?_⟩
          obtain ⟨d', hd', hkey⟩ := hsee.smallest_seen _ rfl
          rw [← hkey]
          exact hlast d' hd'
    simp only [Build.add]
    split
    · exact hpush.close 0 hlast
    · exact hpush

theorem Build.Ranged.run {b : Build β} {seen es : List (Entry β)} (h : b.Ranged seen)
    (live : ℕ) (sorted : StrictlySorted (seen ++ es)) : (b.run live es).Ranged (seen ++ es) := by
  induction es generalizing b seen with
  | nil => simpa [Build.run] using h
  | cons e es ih =>
      have hassoc : seen ++ e :: es = seen ++ [e] ++ es := by simp
      have hlast : ∀ d ∈ seen, d.key < e.key := fun d hd =>
        (List.pairwise_append.mp sorted).2.2 d hd e List.mem_cons_self
      rw [hassoc] at sorted ⊢
      exact ih (h.step live hlast) sorted

/-- **When the entries are visited in order, the output tables record ranges that hold
their entries.** -/
theorem covers_mergedTables {fileno : ℕ} {visited : List (Entry β)} (sorted : StrictlySorted visited) :
    ∀ t ∈ (mergedTables live fileno visited).newFiles, t.Covers := by
  have hstart : (Build.start fileno : Build β).Ranged [] :=
    ⟨by simp [Build.start], by simp [Build.start], by simp [Build.start], by simp [Build.start]⟩
  have hrun := hstart.run live (show StrictlySorted ([] ++ visited) from sorted)
  rw [List.nil_append] at hrun
  rw [mergedTables]
  cases hvis : visited.getLast? with
  | none => exact hrun.covers
  | some d =>
      have hlast : ∀ e ∈ visited, e.key ≤ d.key := by
        obtain ⟨init, rfl⟩ := List.getLast?_eq_some_iff.mp hvis
        intro e he
        rcases List.mem_append.mp he with he | he
        · exact ((List.pairwise_append.mp sorted).2.2 e he d (by simp)).le
        · rw [List.mem_singleton.mp he]
      simp only [Option.map_some, Build.finish]
      split
      · exact hrun.covers
      · exact (hrun.close 0 hlast).covers

/-- A key takes its place in a table. -/
theorem length_le_approximateSize (e : Entry β) : e.key.userKey.length ≤ approximateSize [e] := by
  simp only [approximateSize, TableBuilder.addAll, List.map_cons, List.map_nil, List.foldl_cons,
    List.foldl_nil, TableBuilder.add, TableBuilder.addIndexEntry_eq]
  split
  · simp [TableBuilder.approximateFileSize, TableBuilder.flush, TableBuilder.flushWith,
      TableBuilder.appendEntry, TableBuilder.new, entryBytes_ne_nil, TableBuilder.writeRawBlock]
    omega
  · simp [TableBuilder.approximateFileSize, TableBuilder.appendEntry, TableBuilder.new]
    omega

/-- Every finished table holds one entry, and no table is open. -/
structure Build.Single (b : Build β) : Prop where
  out : b.out = []
  tables : ∀ t ∈ b.newFiles, t.entries.length = 1

theorem Build.Single.step {b : Build β} (h : b.Single) {e : Entry β}
    (big : live ≤ e.key.seq → sstFileSize ≤ e.key.userKey.length) : (b.step live e).Single := by
  by_cases hexp : e.key.seq < live
  · rw [Build.step_expired hexp]
    exact ⟨h.out, h.tables⟩
  · have hcut : sstFileSize ≤ approximateSize ((b.see e.key).out ++ [e]) := by
      have hout : (b.see e.key).out = [] := h.out
      rw [hout, List.nil_append]
      exact (big (not_lt.mp hexp)).trans (length_le_approximateSize e)
    rw [Build.step_live hexp, Build.add, if_pos hcut]
    refine ⟨rfl, fun t ht => ?_⟩
    rcases List.mem_append.mp ht with ht | ht
    · exact h.tables t ht
    · rw [List.mem_singleton.mp ht]
      simp [Build.see, h.out]

theorem Build.Single.run {b : Build β} (h : b.Single) {es : List (Entry β)}
    (big : ∀ e ∈ es, live ≤ e.key.seq → sstFileSize ≤ e.key.userKey.length) :
    (b.run live es).Single := by
  induction es generalizing b with
  | nil => exact h
  | cons e es ih =>
      exact ih (h.step (big e List.mem_cons_self)) fun d hd => big d (List.mem_cons_of_mem _ hd)

/-- **Large keys get tables of their own.** -/
theorem single_mergedTables {fileno : ℕ} {visited : List (Entry β)}
    (big : ∀ e ∈ visited, live ≤ e.key.seq → sstFileSize ≤ e.key.userKey.length) :
    ∀ t ∈ (mergedTables live fileno visited).newFiles, t.entries.length = 1 := by
  have hstart : (Build.start fileno : Build β).Single := ⟨rfl, by simp [Build.start]⟩
  have hrun := hstart.run big
  rw [mergedTables]
  cases visited.getLast?.map (·.key) with
  | none => exact hrun.tables
  | some key =>
      rw [Build.finish, if_pos (by simp [hrun.out])]
      exact hrun.tables

theorem SSTFile.covers_view (f : Entry β → γ) {t : SSTFile β} : (t.view f).Covers ↔ t.Covers := by
  simp [SSTFile.Covers, SSTFile.view]

theorem Build.consecutive_view (f : Entry β → γ) {b : Build β} :
    (b.view f).Consecutive start ↔ b.Consecutive start := by
  constructor
  · intro h
    refine ⟨by simpa [Build.view] using h.next, ?_, fun t ht => ?_⟩
    · simpa [Build.view, SSTFile.view, Function.comp_def] using h.numbers
    · have := h.nonempty (t.view f) (List.mem_map_of_mem ht)
      simpa [SSTFile.view] using this
  · intro h
    refine ⟨by simpa [Build.view] using h.next, ?_, fun t ht => ?_⟩
    · simpa [Build.view, SSTFile.view, Function.comp_def] using h.numbers
    · obtain ⟨t', ht', rfl⟩ := List.mem_map.mp ht
      simpa [SSTFile.view] using h.nonempty t' ht'

end Tables

section Outcome

variable {crc32c : Bytes → ℕ} {buildVlog : Bool} {live fileno : ℕ}
  {inputs : List (List (Entry VLogEntryInfo))} {b : Build VLogEntryInfo} {w w' : VLogWork}
  {visited : List (Entry VLogEntryInfo)}

theorem buildWhenCompaction_consecutive
    (order : LoserTree.visit (fun e => e.key.encode) inputs = some visited)
    (h : buildWhenCompaction crc32c buildVlog live fileno w inputs = .ok (b, w')) :
    b.Consecutive fileno := by
  have hshape := buildWhenCompaction_shape order h
  rw [← Build.consecutive_view (fun _ => ())]
  change b.shape.Consecutive fileno
  rw [hshape]
  exact (Build.consecutive_view _).mpr (consecutive_mergedTables fileno visited)

theorem buildWhenCompaction_covers
    (order : LoserTree.visit (fun e => e.key.encode) inputs = some visited)
    (sorted : StrictlySorted visited)
    (h : buildWhenCompaction crc32c buildVlog live fileno w inputs = .ok (b, w')) :
    ∀ t ∈ b.newFiles, t.Covers := by
  have hshape := congrArg Build.newFiles (buildWhenCompaction_shape order h)
  intro t ht
  have hmem : t.view (fun _ => ()) ∈ (mergedTables live fileno visited).shape.newFiles := by
    rw [← hshape]
    exact List.mem_map_of_mem ht
  obtain ⟨t', ht', heq⟩ := List.mem_map.mp hmem
  rw [← SSTFile.covers_view fun _ => (), ← heq, SSTFile.covers_view]
  exact covers_mergedTables sorted t' ht'

theorem buildWhenCompaction_single
    (order : LoserTree.visit (fun e => e.key.encode) inputs = some visited)
    (big : ∀ e ∈ visited, live ≤ e.key.seq → sstFileSize ≤ e.key.userKey.length)
    (h : buildWhenCompaction crc32c buildVlog live fileno w inputs = .ok (b, w')) :
    ∀ t ∈ b.newFiles, t.entries.length = 1 := by
  have hshape := congrArg Build.newFiles (buildWhenCompaction_shape order h)
  intro t ht
  have hmem : t.view (fun _ => ()) ∈ (mergedTables live fileno visited).shape.newFiles := by
    rw [← hshape]
    exact List.mem_map_of_mem ht
  obtain ⟨t', ht', heq⟩ := List.mem_map.mp hmem
  have hlen : t.entries.length = t'.entries.length := by
    simpa [SSTFile.view] using (congrArg (fun t => t.entries.length) heq).symm
  rw [hlen]
  exact single_mergedTables big t' ht'

end Outcome

end Lsmkv
