import Lsmkv.Run

/-!
# The numbers of table files

`Version::NewSSTFileNumber` only looks at the counter `fileno_`, and `SetSSTFileNumber` moves it
(`src/include/version.h`).  A file is created under one look at the counter, and the
`file_number_` of its `SSTFileMeta` comes from the same look in `BuildTable` and from another one
in `BuildWhenCompaction` (`src/builder.cpp`, `src/levelcache.cpp`); the counter is moved in three
functions, and not at all where something fails.

`FileNumbers.State` has the counter, the maps of the levels, every key with the `file_number_` of
its meta, and the place of the background thread, which is the only one that builds tables.  Which
keys are expired, when a table is full, and which tables are picked is left open, and every call
may fail.  The invariant is that a file that is open was created under the number that the counter
still shows, and that everything else that has a number has a smaller one of its own
(`FileNumbers.Invariant`).  So no number is used twice (`FileNumbers.numbers_fresh`).
`Lsmkv.StoreNumbers` has the store of `Lsmkv.Run` go this way.
-/

namespace Lsmkv

namespace FileNumbers

/-- An entry of the map of a level: its key, and the `file_number_` of its meta. -/
structure Slot where
  key : ℕ
  number : ℕ
  deriving DecidableEq

/-- A number is not a key of the map. -/
def Free (l : List Slot) (n : ℕ) : Prop := ∀ slot ∈ l, slot.key ≠ n

instance (l : List Slot) (n : ℕ) : Decidable (Free l n) := inferInstanceAs (Decidable (∀ _ ∈ _, _))

/-- `emplace`: a key that is present is left alone. -/
def emplace (l : List Slot) (slot : Slot) : List Slot :=
  if Free l slot.key then slot :: l else l

/-- `erase`. -/
def erase (l : List Slot) (key : ℕ) : List Slot := l.filter fun slot => slot.key ≠ key

/-- A table that is finished: the number its file was created under, and the `file_number_` of its
meta. -/
structure Output where
  created : ℕ
  number : ℕ
  deriving DecidableEq

/-- A call of `BuildWhenCompaction`. -/
structure Merge where
  level : ℕ
  old : List ℕ
  overlap : List ℕ
  /-- The number that the open file was created under. -/
  file : Option ℕ
  /-- `builder` is not null. -/
  building : Bool
  newFiles : List Output

/-- What the background thread is doing. -/
inductive Work
  | idle
  /-- `BuildTable`, behind the creation of its file. -/
  | table (created : ℕ)
  /-- `BuildTable` has returned `OK`. -/
  | built (f : Output)
  /-- `AddFile(0, &meta)` is next. -/
  | add (f : Output)
  /-- `BuildWhenCompaction`. -/
  | merge (m : Merge)
  /-- `DoCompactionWork` behind `BuildWhenCompaction`: what is still to be removed, and what is
  still to be added. -/
  | replace (level : ℕ) (old overlap : List ℕ) (newFiles : List Output)
  /-- `MoveFiles`, with the metas still to be moved. -/
  | move (level : ℕ) (metas : List ℕ)

/-- The tables that are finished and in no level yet. -/
def Work.outputs : Work → List Output
  | .built f | .add f => [f]
  | .merge m => m.newFiles
  | .replace _ _ _ newFiles => newFiles
  | .idle | .table _ | .move _ _ => []

/-- The counter, the levels and the background thread. -/
structure State where
  fileno : ℕ
  levels : ℕ → List Slot
  work : Work

/-- A store on an empty directory. -/
def new : State := ⟨0, fun _ => [], .idle⟩

/-- What a step does that others can see. -/
inductive Event
  | silent
  /-- A file is created, or truncated, under a number. -/
  | creates (number : ℕ)
  /-- The meta of a finished table gets its number. -/
  | records (f : Output)
  /-- `emplace` with a number, in the map of a level. -/
  | emplaces (level number : ℕ)

/-- The map of one level changes. -/
def State.setLevel (s : State) (level : ℕ) (l : List Slot) : State :=
  { s with levels := Function.update s.levels level l }

/-- `compact_vlog` of `DoCompactionWork`. -/
def compactVlog (level : ℕ) : Prop := kCompactionVLogLevel ≤ level + 1

/-- `DoCompactionWork` only moves the tables. -/
def Moves (level : ℕ) (overlap : List ℕ) : Prop := level ≠ 0 ∧ ¬ compactVlog level ∧ overlap = []

/-- The metas of a level, by their `file_number_`. -/
def State.Metas (s : State) (level : ℕ) (metas : List ℕ) : Prop :=
  ∀ n ∈ metas, ∃ slot ∈ s.levels level, slot.number = n

/-- **One step of the background thread.** -/
inductive Step : State → Event → State → Prop
  /-- `BuildTable` creates its file and puts the number in the meta. -/
  | create {s : State} (here : s.work = .idle) :
      Step s (.creates s.fileno) { s with work := .table s.fileno }
  /-- Something fails in `BuildTable`. -/
  | tableFails {s : State} {n : ℕ} (here : s.work = .table n) :
      Step s .silent { s with work := .idle }
  /-- The end of `BuildTable`, with its `SetSSTFileNumber`. -/
  | tableBuilt {s : State} {n : ℕ} (here : s.work = .table n) :
      Step s (.records ⟨n, n⟩) { s with fileno := n + 1, work := .built ⟨n, n⟩ }
  /-- The `SetSSTFileNumber` of `WriteLevel0Table`. -/
  | setNumber {s : State} {f : Output} (here : s.work = .built f) :
      Step s .silent { s with fileno := f.number + 1, work := .add f }
  | addTable {s : State} {f : Output} (here : s.work = .add f) :
      Step s (.emplaces 0 f.number)
        { s.setLevel 0 (emplace (s.levels 0) ⟨f.number, f.number⟩) with work := .idle }
  /-- `PickCompaction`, where the tables are moved. -/
  | pickMove {s : State} {level : ℕ} {old : List ℕ} (here : s.work = .idle)
      (picked : s.Metas level old) (moves : Moves level []) :
      Step s .silent { s with work := .move level old }
  /-- `PickCompaction`, where the tables are merged. -/
  | pickMerge {s : State} {level : ℕ} {old overlap : List ℕ} (here : s.work = .idle)
      (picked : s.Metas level old) (overlapping : s.Metas (level + 1) overlap)
      (merges : ¬ Moves level overlap) :
      Step s .silent { s with work := .merge ⟨level, old, overlap, none, false, []⟩ }
  /-- A key finds no open file. -/
  | openFile {s : State} {m : Merge} (here : s.work = .merge m) (none : m.file = none) :
      Step s (.creates s.fileno)
        { s with work := .merge { m with file := some s.fileno, building := true } }
  /-- The file cannot be created, and the status is overwritten by that of the value log. -/
  | openFails {s : State} {m : Merge} (here : s.work = .merge m) (none : m.file = none)
      (buildVlog : compactVlog m.level) :
      Step s .silent { s with work := .merge { m with building := true } }
  /-- A table is full, or is the last one. -/
  | finish {s : State} {m : Merge} {n : ℕ} (here : s.work = .merge m) (opened : m.file = some n) :
      Step s (.records ⟨n, s.fileno⟩) { s with
        fileno := s.fileno + 1
        work := .merge { m with
          file := none, building := false, newFiles := m.newFiles ++ [⟨n, s.fileno⟩] } }
  /-- The value log of a table that is finished cannot be closed. -/
  | closeFails {s : State} {m : Merge} {n : ℕ} (here : s.work = .merge m) (opened : m.file = some n)
      (buildVlog : compactVlog m.level) :
      Step s .silent { s with fileno := s.fileno + 1, work := .idle }
  /-- Something else fails in `BuildWhenCompaction`. -/
  | mergeFails {s : State} {m : Merge} (here : s.work = .merge m) :
      Step s .silent { s with work := .idle }
  | merged {s : State} {m : Merge} (here : s.work = .merge m) (done : m.building = false) :
      Step s .silent { s with work := .replace m.level m.old m.overlap m.newFiles }
  | removeOld {s : State} {level n : ℕ} {old overlap : List ℕ} {newFiles : List Output}
      (here : s.work = .replace level (n :: old) overlap newFiles)
      (found : ¬ Free (s.levels level) n) :
      Step s .silent { s.setLevel level (erase (s.levels level) n) with
        work := .replace level old overlap newFiles }
  | removeOldStops {s : State} {level n : ℕ} {old overlap : List ℕ} {newFiles : List Output}
      (here : s.work = .replace level (n :: old) overlap newFiles)
      (missing : Free (s.levels level) n) :
      Step s .silent { s with work := .replace level [] overlap newFiles }
  | removeOverlap {s : State} {level n : ℕ} {overlap : List ℕ} {newFiles : List Output}
      (here : s.work = .replace level [] (n :: overlap) newFiles)
      (found : ¬ Free (s.levels (level + 1)) n) :
      Step s .silent { s.setLevel (level + 1) (erase (s.levels (level + 1)) n) with
        work := .replace level [] overlap newFiles }
  | removeOverlapStops {s : State} {level n : ℕ} {overlap : List ℕ} {newFiles : List Output}
      (here : s.work = .replace level [] (n :: overlap) newFiles)
      (missing : Free (s.levels (level + 1)) n) :
      Step s .silent { s with work := .replace level [] [] newFiles }
  | addFile {s : State} {level : ℕ} {f : Output} {newFiles : List Output}
      (here : s.work = .replace level [] [] (f :: newFiles)) :
      Step s (.emplaces (level + 1) f.number)
        { s.setLevel (level + 1) (emplace (s.levels (level + 1)) ⟨f.number, f.number⟩) with
          work := .replace level [] [] newFiles }
  | replaced {s : State} {level : ℕ} (here : s.work = .replace level [] [] []) :
      Step s .silent { s with work := .idle }
  /-- `MoveFiles` emplaces a meta in the next level and erases its old entry. -/
  | moveFile {s : State} {level : ℕ} {slot : Slot} {metas : List ℕ}
      (here : s.work = .move level (slot.key :: metas)) (found : slot ∈ s.levels level) :
      Step s (.emplaces (level + 1) slot.key)
        { (s.setLevel (level + 1) (emplace (s.levels (level + 1)) ⟨slot.key, slot.number⟩)).setLevel
            level (erase (s.levels level) slot.key) with work := .move level metas }
  /-- A meta is not found, and `MoveFiles` stops. -/
  | moveStops {s : State} {level n : ℕ} {metas : List ℕ} (here : s.work = .move level (n :: metas))
      (missing : Free (s.levels level) n) : Step s .silent { s with work := .idle }
  | moved {s : State} {level : ℕ} (here : s.work = .move level []) :
      Step s .silent { s with work := .idle }

/-- The states that a run can reach. -/
inductive Reachable : State → Prop
  | new : Reachable FileNumbers.new
  | step {s s' : State} {e : Event} (reached : Reachable s) (taken : Step s e s') : Reachable s'

/-! ## Every number is used once -/

/-- Finished tables with numbers of their own, which no level has. -/
structure Pending (s : State) (newFiles : List Output) : Prop where
  created : ∀ f ∈ newFiles, f.created = f.number
  below : ∀ f ∈ newFiles, f.number < s.fileno
  free : ∀ f ∈ newFiles, ∀ i, Free (s.levels i) f.number
  nodup : (newFiles.map Output.number).Nodup

/-- **The tables of the levels** have smaller numbers than the counter, each one its own. -/
structure Numbered (s : State) : Prop where
  keys : ∀ i, ∀ slot ∈ s.levels i, slot.key = slot.number
  below : ∀ i, ∀ slot ∈ s.levels i, slot.key < s.fileno
  apart : ∀ i j n, ¬ Free (s.levels i) n → ¬ Free (s.levels j) n → i = j

/-- What holds where the background thread is: a file that is open was created under the number
that the counter still shows. -/
def Work.At (fileno : ℕ) : Work → Prop
  | .table n => n = fileno
  | .built f | .add f => f.number + 1 = fileno
  | .merge m => ∀ n, m.file = some n → n = fileno
  | .idle | .replace _ _ _ _ | .move _ _ => True

/-- **The invariant.** -/
structure Invariant (s : State) : Prop extends Numbered s where
  pending : Pending s s.work.outputs
  here : s.work.At s.fileno

section Invariant

variable {s s' : State} {l : List Slot} {slot slot' : Slot} {n : ℕ} {newFiles : List Output}

theorem mem_of_mem_emplace (h : slot ∈ emplace l slot') : slot = slot' ∨ slot ∈ l := by
  unfold emplace at h
  split at h
  · exact List.mem_cons.mp h
  · exact .inr h

theorem mem_erase : slot ∈ erase l n ↔ slot ∈ l ∧ slot.key ≠ n := by
  simp [erase]

theorem Free.emplaced (h : Free l n) (ne : slot.key ≠ n) : Free (emplace l slot) n := by
  intro slot' hmem
  rcases mem_of_mem_emplace hmem with rfl | hmem
  · exact ne
  · exact h slot' hmem

theorem Free.mono {l' : List Slot} (h : Free l n) (sub : l' ⊆ l) : Free l' n :=
  fun slot hslot => h slot (sub hslot)

theorem free_erase (l : List Slot) (n : ℕ) : Free (erase l n) n :=
  fun _ hslot => (mem_erase.mp hslot).2

/-- A number above the counter is in no level. -/
theorem Numbered.free (h : Numbered s) (above : s.fileno ≤ n) (i : ℕ) : Free (s.levels i) n := by
  intro slot hslot
  have := h.below i slot hslot
  omega

/-- Tables are taken out of the levels. -/
theorem Numbered.shrink (h : Numbered s) (levels : ∀ i, s'.levels i ⊆ s.levels i)
    (fileno : s.fileno ≤ s'.fileno) : Numbered s' where
  keys := fun i slot hslot => h.keys i slot (levels i hslot)
  below := fun i slot hslot => (h.below i slot (levels i hslot)).trans_le fileno
  apart := fun i j n hi hj =>
    h.apart i j n (fun hfree => hi (hfree.mono (levels i))) fun hfree => hj (hfree.mono (levels j))

theorem Pending.shrink (h : Pending s newFiles) (levels : ∀ i, s'.levels i ⊆ s.levels i)
    (fileno : s.fileno ≤ s'.fileno) : Pending s' newFiles where
  created := h.created
  below := fun f hf => (h.below f hf).trans_le fileno
  free := fun f hf i => (h.free f hf i).mono (levels i)
  nodup := h.nodup

theorem pending_nil (s : State) : Pending s [] := ⟨by simp, by simp, by simp, by simp⟩

theorem Pending.single {f : Output} (created : f.created = f.number) (below : f.number < s.fileno)
    (free : ∀ i, Free (s.levels i) f.number) : Pending s [f] :=
  ⟨by simpa using created, by simpa using below, by simpa using free, by simp⟩

/-- The thread goes on, and the levels are as they were, or smaller. -/
theorem Invariant.goOn (h : Invariant s) (levels : ∀ i, s'.levels i ⊆ s.levels i)
    (fileno : s.fileno ≤ s'.fileno) (pending : Pending s' s'.work.outputs)
    (here : s'.work.At s'.fileno) : Invariant s' :=
  ⟨h.toNumbered.shrink levels fileno, pending, here⟩

/-- The thread comes to rest. -/
theorem Invariant.rest (h : Invariant s) : Invariant { s with work := .idle } :=
  h.goOn (fun _ => List.Subset.refl _) le_rfl (pending_nil _) trivial

theorem Invariant.setWork (h : Invariant s) {w : Work} (outputs : w.outputs = s.work.outputs)
    (here : w.At s.fileno) : Invariant { s with work := w } := by
  refine h.goOn (fun _ => List.Subset.refl _) le_rfl ?_ here
  rw [outputs]
  exact h.pending.shrink (fun _ => List.Subset.refl _) le_rfl

/-- The levels behind the change of one of them. -/
theorem setLevel_levels (s : State) (i j : ℕ) (l : List Slot) :
    (s.setLevel i l).levels j = if j = i then l else s.levels j := by
  simp only [State.setLevel, Function.update_apply]

theorem setLevel_erase_subset (s : State) (level n i : ℕ) :
    (s.setLevel level (erase (s.levels level) n)).levels i ⊆ s.levels i := by
  rw [setLevel_levels]
  split
  · rename_i heq
    subst heq
    exact fun slot hslot => (mem_erase.mp hslot).1
  · exact List.Subset.refl _

theorem Invariant.removed (h : Invariant s) (level n : ℕ) {w : Work}
    (outputs : w.outputs = s.work.outputs) (here : w.At s.fileno) :
    Invariant { s.setLevel level (erase (s.levels level) n) with work := w } := by
  refine h.goOn (setLevel_erase_subset s level n) le_rfl ?_ here
  rw [outputs]
  exact h.pending.shrink (setLevel_erase_subset s level n) le_rfl

theorem free_setLevel_emplace {level i k : ℕ} (free : Free (s.levels i) k)
    (other : i = level → k ≠ n) :
    Free ((s.setLevel level (emplace (s.levels level) ⟨n, n⟩)).levels i) k := by
  rw [setLevel_levels]
  split
  · rename_i heq
    subst heq
    exact free.emplaced (Ne.symm (other rfl))
  · exact free

/-- A table with a number that no level has gets into a level. -/
theorem Numbered.emplaced (h : Numbered s) (level : ℕ) (below : n < s.fileno)
    (free : ∀ i, Free (s.levels i) n) :
    Numbered (s.setLevel level (emplace (s.levels level) ⟨n, n⟩)) where
  keys := by
    intro i slot hslot
    rw [setLevel_levels] at hslot
    split at hslot
    · rcases mem_of_mem_emplace hslot with rfl | hslot
      · rfl
      · exact h.keys level slot hslot
    · exact h.keys i slot hslot
  below := by
    intro i slot hslot
    rw [setLevel_levels] at hslot
    split at hslot
    · rcases mem_of_mem_emplace hslot with rfl | hslot
      · exact below
      · exact h.below level slot hslot
    · exact h.below i slot hslot
  apart := by
    intro i j k hi hj
    -- Every number but the new one is where it was.
    by_cases hk : k = n
    · have hnew : ∀ i, ¬ Free ((s.setLevel level (emplace (s.levels level) ⟨n, n⟩)).levels i) k →
          i = level := by
        intro i hi
        by_contra hne
        exact hi (free_setLevel_emplace (hk ▸ free i) fun heq => absurd heq hne)
      rw [hnew i hi, hnew j hj]
    · have hold : ∀ i, ¬ Free ((s.setLevel level (emplace (s.levels level) ⟨n, n⟩)).levels i) k →
          ¬ Free (s.levels i) k :=
        fun i hi hfree => hi (free_setLevel_emplace hfree fun _ => hk)
      exact h.apart i j k (hold i hi) (hold j hj)

theorem Pending.emplaced (h : Pending s newFiles) (level : ℕ)
    (other : n ∉ newFiles.map Output.number) :
    Pending (s.setLevel level (emplace (s.levels level) ⟨n, n⟩)) newFiles where
  created := h.created
  below := h.below
  free := by
    intro f hf i
    refine free_setLevel_emplace (h.free f hf i) fun _ => ?_
    rintro rfl
    exact other (List.mem_map_of_mem hf)
  nodup := h.nodup

/-- A finished table gets into a level. -/
theorem Invariant.add (h : Invariant s) {f : Output} (level : ℕ)
    (outputs : s.work.outputs = f :: newFiles) {w : Work} (rest : w.outputs = newFiles)
    (here : w.At s.fileno) :
    Invariant { s.setLevel level (emplace (s.levels level) ⟨f.number, f.number⟩) with
      work := w } := by
  have hpending := h.pending
  rw [outputs] at hpending
  have hnodup := List.nodup_cons.mp hpending.nodup
  have hrest : Pending s newFiles :=
    ⟨fun g hg => hpending.created g (List.mem_cons_of_mem _ hg),
      fun g hg => hpending.below g (List.mem_cons_of_mem _ hg),
      fun g hg => hpending.free g (List.mem_cons_of_mem _ hg), hnodup.2⟩
  have hnumbered := h.toNumbered.emplaced level (hpending.below f List.mem_cons_self)
    (hpending.free f List.mem_cons_self)
  have hpend := hrest.emplaced level hnodup.1
  rw [← rest] at hpend
  exact ⟨⟨hnumbered.keys, hnumbered.below, hnumbered.apart⟩,
    ⟨hpend.created, hpend.below, hpend.free, hpend.nodup⟩, here⟩

/-- A table gets from a level into the next one. -/
theorem Invariant.moveFile (h : Invariant s) {level : ℕ} {metas : List ℕ}
    (found : slot ∈ s.levels level) :
    Invariant { (s.setLevel (level + 1)
        (emplace (s.levels (level + 1)) ⟨slot.key, slot.number⟩)).setLevel level
          (erase (s.levels level) slot.key) with work := .move level metas } := by
  -- First the table is taken out, then it is put in.
  have hout : Numbered (s.setLevel level (erase (s.levels level) slot.key)) :=
    h.toNumbered.shrink (setLevel_erase_subset s level slot.key) le_rfl
  have hfree : ∀ i, Free ((s.setLevel level (erase (s.levels level) slot.key)).levels i)
      slot.key := by
    intro i
    rw [setLevel_levels]
    split
    · exact free_erase _ _
    · rename_i hne
      by_contra hnot
      exact hne (h.apart i level slot.key hnot fun hfree => hfree slot found rfl)
  have hin := hout.emplaced (level + 1) (h.below level slot found) hfree
  have hkey := h.keys level slot found
  have hlevels : ((s.setLevel level (erase (s.levels level) slot.key)).setLevel (level + 1)
      (emplace ((s.setLevel level (erase (s.levels level) slot.key)).levels (level + 1))
        ⟨slot.key, slot.key⟩)).levels =
      ((s.setLevel (level + 1) (emplace (s.levels (level + 1)) ⟨slot.key, slot.number⟩)).setLevel
        level (erase (s.levels level) slot.key)).levels := by
    funext i
    rw [← hkey]
    simp only [setLevel_levels]
    split_ifs <;> first | rfl | omega
  refine ⟨⟨fun i => ?_, fun i => ?_, fun i j => ?_⟩, pending_nil _, trivial⟩
  · rw [← hlevels]
    exact hin.keys i
  · rw [← hlevels]
    exact hin.below i
  · rw [← hlevels]
    exact hin.apart i j

end Invariant

/-- **Every step keeps the invariant.** -/
theorem Invariant.step {s s' : State} {e : Event} (h : Invariant s) (taken : Step s e s') :
    Invariant s' := by
  have hsame : ∀ i, s.levels i ⊆ s.levels i := fun _ => List.Subset.refl _
  have hhere := h.here
  have hpending := h.pending
  cases taken with
  | create here => exact h.goOn hsame le_rfl (pending_nil _) rfl
  | tableFails | moveStops | moved | mergeFails | replaced => exact h.rest
  -- the file of a flush was created under the counter, which now goes past it
  | @tableBuilt n here =>
      rw [here] at hhere
      obtain rfl : n = s.fileno := hhere
      refine h.goOn hsame (Nat.le_succ _) (.single rfl (Nat.lt_succ_self _) fun i => ?_) rfl
      exact h.toNumbered.free le_rfl i
  | @setNumber f here =>
      rw [here] at hhere hpending
      have hle : s.fileno ≤ f.number + 1 := Nat.le_of_eq hhere.symm
      exact h.goOn hsame hle (hpending.shrink hsame hle) rfl
  | addTable here => exact h.add 0 (by rw [here]; rfl) rfl trivial
  | pickMove here => exact h.goOn hsame le_rfl (pending_nil _) trivial
  | pickMerge here => exact h.goOn hsame le_rfl (pending_nil _) (by simp [Work.At])
  | openFile here none =>
      refine h.setWork (by rw [here]; rfl) ?_
      intro n hn
      exact (Option.some.inj hn).symm
  | openFails here none =>
      refine h.setWork (by rw [here]; rfl) ?_
      intro n hn
      simp [none] at hn
  -- an output gets the counter as its number, and it was created under the same one
  | @finish m n here opened =>
      rw [here] at hhere hpending
      have hn : n = s.fileno := hhere n opened
      have hfree := h.toNumbered.free (n := s.fileno) le_rfl
      refine h.goOn hsame (Nat.le_succ _) ⟨fun f hf => ?_, fun f hf => ?_, fun f hf i => ?_, ?_⟩
        (by simp [Work.At])
      · rcases List.mem_append.mp hf with hf | hf
        · exact hpending.created f hf
        · rw [List.mem_singleton.mp hf]
          exact hn
      · rcases List.mem_append.mp hf with hf | hf
        · exact (hpending.below f hf).trans (Nat.lt_succ_self _)
        · rw [List.mem_singleton.mp hf]
          exact Nat.lt_succ_self _
      · rcases List.mem_append.mp hf with hf | hf
        · exact hpending.free f hf i
        · rw [List.mem_singleton.mp hf]
          exact hfree i
      -- the earlier outputs have lower numbers
      · show ((m.newFiles ++ [Output.mk n s.fileno]).map Output.number).Nodup
        rw [List.map_append, List.map_singleton, ← List.concat_eq_append, List.nodup_concat]
        refine And.intro (fun hmem => ?_) hpending.nodup
        obtain ⟨f, hf, heq⟩ := List.mem_map.mp hmem
        exact absurd heq (Nat.ne_of_lt (hpending.below f hf))
  -- the outputs of a failed compaction are dropped, and the number is used up
  | closeFails here opened => exact h.goOn hsame (Nat.le_succ _) (pending_nil _) trivial
  | merged here => exact h.setWork (by rw [here]; rfl) trivial
  | removeOld here => exact h.removed _ _ (by rw [here]; rfl) trivial
  | removeOldStops here => exact h.setWork (by rw [here]; rfl) trivial
  | removeOverlap here => exact h.removed _ _ (by rw [here]; rfl) trivial
  | removeOverlapStops here => exact h.setWork (by rw [here]; rfl) trivial
  | addFile here => exact h.add _ (by rw [here]; rfl) rfl trivial
  | moveFile here found => exact h.moveFile found

theorem invariant_of_reachable {s : State} (h : Reachable s) : Invariant s := by
  induction h with
  | new => exact ⟨⟨by simp [new], by simp [new], by simp [new, Free]⟩, pending_nil _, trivial⟩
  | step _ taken ih => exact ih.step taken

/-- **No number of a table file is used twice**, in any run of flushes and compactions, with any
failures: a file is created under a number that no table of any level has; the number that the
meta of a finished table gets is the one its file was created under; `emplace` finds its number
free; and behind every step the keys of the maps are the numbers of their metas, and the finished
tables of a compaction have different numbers. -/
theorem numbers_fresh {s s' : State} {e : Event} (reached : Reachable s) (taken : Step s e s') :
    (∀ n, e = .creates n → ∀ i, ∀ slot ∈ s.levels i, slot.key ≠ n ∧ slot.number ≠ n) ∧
    (∀ f, e = .records f → f.created = f.number) ∧
    (∀ level n, e = .emplaces level n → ∀ slot ∈ s.levels level, slot.key ≠ n) ∧
    (∀ i, ∀ slot ∈ s'.levels i, slot.key = slot.number) ∧
    (∀ f ∈ s'.work.outputs, f.created = f.number) ∧
    (s'.work.outputs.map Output.number).Nodup := by
  have h := invariant_of_reachable reached
  have h' := h.step taken
  -- the counter is above every number that a level holds
  have hcreates : ∀ i, ∀ slot ∈ s.levels i, slot.key ≠ s.fileno ∧ slot.number ≠ s.fileno := by
    intro i slot hslot
    have hfree := h.toNumbered.free le_rfl i slot hslot
    exact ⟨hfree, h.keys i slot hslot ▸ hfree⟩
  have hpending : ∀ {f : Output} {newFiles : List Output}, s.work.outputs = f :: newFiles →
      ∀ i, ∀ slot ∈ s.levels i, slot.key ≠ f.number := by
    intro f newFiles houtputs i
    exact h.pending.free f (houtputs ▸ List.mem_cons_self) i
  refine ⟨fun n he => ?_, fun f he => ?_, fun level n he => ?_, h'.keys, h'.pending.created,
    h'.pending.nodup⟩
  · cases taken with
    | create | openFile =>
        obtain rfl : s.fileno = n := Event.creates.inj he
        exact hcreates
    | _ => exact absurd he (by simp)
  · cases taken with
    | tableBuilt here =>
        obtain rfl : _ = f := Event.records.inj he
        rfl
    | @finish m n here opened =>
        obtain rfl : _ = f := Event.records.inj he
        have hhere := h.here
        rw [here] at hhere
        exact hhere n opened
    | _ => exact absurd he (by simp)
  · cases taken with
    | addTable here =>
        obtain ⟨rfl, rfl⟩ := Event.emplaces.inj he
        exact hpending (by rw [here]; rfl) 0
    | addFile here =>
        obtain ⟨rfl, rfl⟩ := Event.emplaces.inj he
        exact hpending (by rw [here]; rfl) _
    | @moveFile i slot metas here found =>
        obtain ⟨rfl, rfl⟩ := Event.emplaces.inj he
        -- a file that moves down is in one level, so its number is free in the next
        by_contra hnot
        have := h.apart i (i + 1) slot.key (fun hfree => hfree slot found rfl) hnot
        omega
    | _ => exact absurd he (by simp)

/-- A table is in level 0, and the next file is created under another number. -/
theorem numbers_fresh_second_table :
    ∃ s s', Reachable s ∧ s.levels 0 = [⟨0, 0⟩] ∧ Step s (.creates 1) s' ∧
      ∀ slot ∈ s.levels 0, slot.key ≠ 1 ∧ slot.number ≠ 1 := by
  have h₁ := Reachable.new.step (.create rfl)
  have h₂ := h₁.step (.tableBuilt rfl)
  have h₃ := h₂.step (.setNumber rfl)
  have h₄ := h₃.step (.addTable rfl)
  have hcreate := Step.create (s := ⟨1, Function.update new.levels 0 [⟨0, 0⟩], .idle⟩) rfl
  exact ⟨_, _, h₄, rfl, hcreate, (numbers_fresh h₄ hcreate).1 1 rfl 0⟩

end FileNumbers

end Lsmkv
