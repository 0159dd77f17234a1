import Lsmkv.Filling
import Lsmkv.NumberRace
import Lsmkv.Ownership

/-!
# Resets and the deletion of files

`KVStore::reset` starts the numbers of tables and value logs again from 0.  The deletion
tasks that compactions have handed to the executor name their files by these numbers, and
`reset` does not wait for them.

A run with resets is `Recycled`.  If a reset finds no task pending, and no write takes a number
while a compaction gives one back, the numbers that tasks name are used up when the task is queued,
and stay so (`tasks_spent`).  If the reset does not wait, a task removes the file of a table that was
written after it (`tasks_not_spent_after_reset`).
-/

namespace Lsmkv

open ByteCode Deferring Files Relation

variable {crc32c : Bytes → ℕ}

/-- A step of a run with resets. -/
inductive Call
  | step (a : Action)
  | reset

namespace Machine

variable (crc32c) in
/-- One step of a run with resets.  `reset` takes the lock that a flush or a compaction
holds to its end, so it finds the background thread idle.  The writes before it are
forgotten. -/
inductive CallStep : Machine → Call → Machine → Prop
  | step {m m' : Machine} {a : Action} (taken : Step crc32c m a m') : CallStep m (.step a) m'
  | reset {m : Machine} (idle : m.flushed = false) :
      CallStep m .reset ⟨m.store.reset crc32c, false, []⟩

variable (crc32c) in
/-- The machines that a run with resets can reach when each of its steps meets a
condition. -/
inductive Recycled (cond : Machine → Call → Prop) : Machine → Prop
  | new : Recycled cond .new
  | step {m m' : Machine} {c : Call} (reached : Recycled cond m) (meets : cond m c)
      (taken : CallStep crc32c m c m') : Recycled cond m'

/-- No deletion is pending when the store is reset. -/
def Drained (m : Machine) : Call → Prop
  | .step _ => True
  | .reset => m.store.tasks = []

/-- The steps before and after a reset are taken when the code takes them. -/
def RegularCall (m : Machine) : Call → Prop
  | .step a => m.Regular a
  | .reset => True

theorem Recycled.run {m m' : Machine} (h : Recycled crc32c RegularCall m)
    (run : Run crc32c Regular m m') : Recycled crc32c RegularCall m' := by
  induction run with
  | refl => exact h
  | tail _ taken ih =>
      obtain ⟨a, meets, taken⟩ := taken
      exact .step ih (c := .step a) meets (.step taken)

theorem Reachable.recycled {m : Machine} (h : Reachable crc32c Regular m) :
    Recycled crc32c RegularCall m := by
  induction h with
  | new => exact .new
  | @step m m' a _ meets taken ih => exact .step ih (c := .step a) meets (.step taken)

variable (crc32c) in
/-- A step of a run with resets that meets a condition. -/
def WholeCall (cond : Machine → Call → Prop) (m m' : Machine) : Prop :=
  ∃ c, cond m c ∧ CallStep crc32c m c m'

variable (crc32c) in
/-- What a run with resets reaches in which a number goes back in two steps: a machine, and the
number that is about to be stored.  No reset comes between the two, since the compaction holds the
lock. -/
def RacedCalls (cond : Machine → Call → Prop) (between : Machine → Action → Prop)
    (c : Machine × Option ℕ) : Prop :=
  ReflTransGen (racing crc32c (WholeCall crc32c cond) (fun m a => cond m (.step a)) between).Next
    (.new, none) c

section RacedCalls

variable {cond : Machine → Call → Prop} {between : Machine → Action → Prop} {m : Machine}

theorem Recycled.of_steps (run : ReflTransGen (WholeCall crc32c cond) .new m) :
    Recycled crc32c cond m := by
  induction run with
  | refl => exact .new
  | tail _ taken ih =>
      obtain ⟨c, meets, taken⟩ := taken
      exact .step ih meets taken

/-- With the number stored, the machine is one that a run with resets reaches. -/
theorem RacedCalls.recycled {c : Machine × Option ℕ} (h : RacedCalls crc32c cond between c)
    (insensitive : Insensitive fun m a => cond m (.step a)) (calm : ∀ m a, between m a → m.Calm a) :
    Recycled crc32c cond ((racing crc32c (WholeCall crc32c cond) (fun m a => cond m (.step a))
      between).settled c) := by
  have hsteps : ∀ {m m' : Machine}, Whole crc32c (fun m a => cond m (.step a)) m m' →
      WholeCall crc32c cond m m' := by
    rintro m m' ⟨a, meets, taken⟩
    exact ⟨.step a, meets, .step taken⟩
  exact .of_steps ((racing_commutes hsteps insensitive calm).settled_reachable h)

/-- Steps when no number is on its way back. -/
theorem RacedCalls.run {m' : Machine} {each : Machine → Action → Prop}
    (h : RacedCalls crc32c cond between (m, none)) (meets : ∀ m a, each m a → cond m (.step a))
    (run : Run crc32c each m m') : RacedCalls crc32c cond between (m', none) := by
  induction run with
  | refl => exact h
  | tail _ taken ih =>
      obtain ⟨a, hmeets, taken⟩ := taken
      exact ih.tail (.step ⟨.step a, meets _ a hmeets, .step taken⟩)

end RacedCalls

end Machine

/-! ## What a reset leaves -/

/-- **The value logs after a reset**: only log 0 exists, it is open and empty. -/
theorem Store.VLogsOwned.reset {s : Store} (h : s.VLogsOwned) (crc32c : Bytes → ℕ)
    (drained : ∀ task ∈ s.tasks, task.2 = []) : (s.reset crc32c).VLogsOwned := by
  obtain ⟨t, ht⟩ := h.isOpen
  let d := (s.vlog.close crc32c s.vlogs.unlinkAll).2
  have hinode : ∀ n, d.inode n = none := by
    intro n
    simp only [d, VLogBuilder.close, ht.builder]
    rfl
  have hwf : d.WellFormed := by
    refine ⟨fun {n i} hi => ?_, fun {m n i} hm => ?_⟩
    · simp [hinode] at hi
    · simp [hinode] at hm
  have hvlogs : (s.reset crc32c).vlogs = (d.create 0).2 := rfl
  refine .of_empty rfl rfl (fun _ => rfl) ?_ (fun n hn => ?_) ⟨.new, VLogBuilder.isOpen_openFile (hinode 0)⟩
    Nat.zero_lt_one drained
  · rw [hvlogs]
    exact hwf.create (hinode 0)
  · have hne : n ≠ 0 := Nat.one_le_iff_ne_zero.mp hn
    rw [hvlogs, Dir.create_snd (hinode 0)]
    simpa [Function.update_of_ne hne] using hinode n

/-- What holds of files and numbers between the steps of a run. -/
structure Machine.Consistent (m : Machine) : Prop where
  ordered : SeqOrdered m
  owned : m.store.VLogsOwned
  tagged : m.store.Tagged
  files : m.store.TableFiles

theorem Machine.Consistent.init : Machine.Consistent .new :=
  ⟨.init, .init, .of_empty Store.levelAt_new rfl, .of_empty Store.levelAt_new rfl⟩

theorem Machine.Consistent.step {m m' : Machine} {a : Action} (h : m.Consistent)
    (taken : Machine.Step crc32c m a m') : m'.Consistent :=
  ⟨h.ordered.step taken, h.owned.step h.ordered taken, h.tagged.step h.ordered h.owned taken,
    h.files.step h.ordered taken⟩

theorem Machine.Consistent.call {m m' : Machine} {c : Call} (h : m.Consistent) (meets : m.Drained c)
    (taken : Machine.CallStep crc32c m c m') : m'.Consistent := by
  cases taken with
  | step taken => exact h.step taken
  | reset idle =>
      have htasks : m.store.tasks = [] := meets
      exact ⟨.of_empty rfl rfl (fun _ => rfl) rfl, h.owned.reset crc32c (by simp [htasks]),
        .of_empty (fun _ => rfl) htasks, .of_empty (fun _ => rfl) htasks⟩

theorem consistent_of_recycled {cond : Machine → Call → Prop}
    (drained : ∀ m c, cond m c → m.Drained c) {m : Machine}
    (h : Machine.Recycled crc32c cond m) : m.Consistent := by
  induction h with
  | new => exact .init
  | step _ meets taken ih => exact ih.call (drained _ _ meets) taken

/-! ## The files of pending tasks -/

/-- Running the task removes neither the file of a table, nor a value log that a table uses,
nor the log that is written to. -/
def Store.Spent (s : Store) (task : List ℕ × List ℕ) : Prop :=
  (∀ n ∈ task.1, ∀ i, ∀ f ∈ levelAt s.levels i, f.fileNumber ≠ n) ∧
    ∀ n ∈ task.2, (∀ i, ∀ f ∈ levelAt s.levels i, ¬ f.Uses n) ∧ s.vlog.fileNo ≠ n

theorem Machine.Consistent.spent {m : Machine} (h : m.Consistent) {task : List ℕ × List ℕ}
    (htask : task ∈ m.store.tasks) : m.store.Spent task := by
  refine ⟨h.files.doomed_apart task htask, fun n hn => ⟨?_, ?_⟩⟩
  · exact (h.owned.logsApart h.tagged h.ordered.numbered).doomed task htask n hn
  · rintro rfl
    exact h.owned.open_main.2 task htask hn

/-- **Whenever a deletion task runs, the files it removes are out of use**, in every run in
which no task is pending at a reset and no write takes a number while one goes back.  A task may run
at any time after it was queued. -/
theorem tasks_spent {c : Machine × Option ℕ}
    (reached : Machine.RacedCalls crc32c Machine.Drained Machine.Calm c) {i : ℕ}
    {task : List ℕ × List ℕ} (runs : c.1.store.tasks[i]? = some task) : c.1.store.Spent task := by
  have hrecycled := reached.recycled (fun _ _ _ _ _ => trivial) fun _ _ calm => calm
  obtain ⟨fileNo, heq⟩ := Machine.settled_eq_reuse crc32c (Machine.WholeCall crc32c Machine.Drained)
    (fun m a => m.Drained (.step a)) Machine.Calm c
  rw [heq] at hrecycled
  exact (consistent_of_recycled (fun _ _ h => h) hrecycled).spent (List.mem_of_getElem? runs)

/-! ## Tables that are merged -/

theorem Machine.Consistent.run {cond : Machine → Action → Prop} {m m' : Machine} (h : m.Consistent)
    (run : Machine.Run crc32c cond m m') : m'.Consistent := by
  induction run with
  | refl => exact h
  | tail _ taken ih =>
      obtain ⟨a, -, taken⟩ := taken
      exact ih.step taken

section Merged

variable {m : Machine} {w : Write}

/-- Up to four rounds with one write, when level 0 is empty. -/
theorem Machine.Resting.rounds (crc32c : Bytes → ℕ) (h : m.Resting) (consistent : m.Consistent)
    (empty : levelAt m.store.levels 0 = []) (fills : Fills w) {n : ℕ}
    (room : n ≤ kL0CompactionTrigger) :
    ∃ m', Run crc32c Flushing m m' ∧ m'.Resting ∧ m'.history = m.history ++ List.replicate n w ∧
      m'.store.tasks = m.store.tasks ∧ m'.store.fileno = m.store.fileno + n ∧
      (levelAt m'.store.levels 0).map (·.fileNumber) = List.range' m.store.fileno n := by
  induction n with
  | zero => exact ⟨m, .refl, h, by simp, rfl, rfl, by simp [empty]⟩
  | succ n ih =>
      obtain ⟨m₁, hrun₁, hrest₁, hhist₁, htasks₁, hfileno₁, htables₁⟩ := ih (Nat.le_of_succ_le room)
      have hcount := congrArg List.length htables₁
      rw [List.length_map, List.length_range'] at hcount
      have hconsistent := consistent.run hrun₁
      obtain ⟨m₂, info, hrun₂, hrest₂, hhist₂, -, -, hfileno₂, htasks₂, hlevels₂⟩ :=
        hrest₁.round crc32c hconsistent.owned hconsistent.ordered.numbered
          (hcount.trans_lt room) fills
      refine ⟨m₂, hrun₁.trans hrun₂, hrest₂, ?_, htasks₂.trans htasks₁, ?_, ?_⟩
      · rw [hhist₂, hhist₁, List.append_assoc, ← List.replicate_succ']
      · rw [hfileno₂, hfileno₁, Nat.add_assoc]
      · rw [hlevels₂, levelAt_setLevel, if_pos rfl, List.map_append, htables₁, List.range'_concat,
          hfileno₁]
        simp

/-- A full level 0 is merged, and its tables are queued for deletion. -/
theorem Machine.Resting.merge (crc32c : Bytes → ℕ) (h : m.Resting) (consistent : m.Consistent)
    (full : kL0CompactionTrigger ≤ (levelAt m.store.levels 0).length) :
    ∃ s' task, Step crc32c m (.compact 0) { m with store := s' } ∧
      s'.tasks = m.store.tasks ++ [task] ∧ task.2 = [] ∧
      ∀ f ∈ levelAt m.store.levels 0, f.fileNumber ∈ task.1 := by
  obtain ⟨info, r, new, p, hzero, hold, hcomp, -, hok⟩ :=
    compactLevel0_isOk crc32c consistent.ordered.numbered full
  have hmem : ∀ f ∈ levelAt m.store.levels 0, f.fileNumber ∈ info.rmSstFiles := by
    intro f hf
    exact List.mem_map_of_mem (List.mem_append_left _ (hold ▸ hf))
  have hne : info.rmSstFiles ≠ [] := by
    obtain ⟨f, hf⟩ := List.exists_mem_of_length_pos (lt_of_lt_of_le (by decide) full)
    exact List.ne_nil_of_mem (hmem f hf)
  have hshallow : info.rmVlogFiles = [] := by
    simp [CompactInfo.rmVlogFiles, hzero, kCompactionVLogLevel]
  refine ⟨m.store.compacted r, (info.rmSstFiles, []), .compact h.idle hok, ?_, rfl, hmem⟩
  cases hcomp with
  | move moves => exact absurd hzero moves.1
  | merge _ b _ _ rm_sst rm_vlog => simp [Store.compacted, rm_sst, rm_vlog, hne, hshallow]

end Merged

/-- A value is written while a number goes back, the store is reset, and four tables written behind
the reset are merged. -/
theorem tasks_spent_merged :
    ∃ (m : Machine) (i : ℕ) (task : List ℕ × List ℕ),
      Machine.RacedCalls crc32cCastagnoli Machine.Drained Machine.Calm (m, none) ∧
      m.store.tasks[i]? = some task ∧ (∀ n < 4, n ∈ task.1) ∧ m.store.Spent task := by
  have hback := Machine.givesBack (m := .new) rfl Store.VLogsOwned.init.fresh
  have hstep : Machine.Step crc32cCastagnoli .new .compactFail (Machine.reuse 2 .new) :=
    .compactFail rfl hback.left
  obtain ⟨s, ok⟩ := (Machine.Consistent.init.step hstep).owned.writeImpl_isOk crc32cCastagnoli ⟨[1], .kTypeValue, [9]⟩ .zero 1
  have hraced : Machine.RacedCalls crc32cCastagnoli Machine.Drained Machine.Calm
      (Machine.reuse 2 .new, some 1) := .tail .refl (.begins ⟨trivial, hback⟩)
  have hstored : Machine.RacedCalls crc32cCastagnoli Machine.Drained Machine.Calm
      (Machine.reuse 1 ⟨s, false, [⟨[1], .kTypeValue, [9]⟩]⟩, none) :=
    (hraced.tail (.meanwhile ⟨.write ⟨[1], .kTypeValue, [9]⟩ .zero 1, trivial, trivial,
      VLogBuilder.full_of_new rfl _, .write ok⟩)).tail .settle
  have htasks : s.tasks = [] := (Store.writeImpl_files ok).1
  have hreset : Machine.RacedCalls crc32cCastagnoli Machine.Drained Machine.Calm
      (⟨(s.reuse 1).reset crc32cCastagnoli, false, []⟩, none) :=
    hstored.tail (.step ⟨.reset, htasks, .reset rfl⟩)
  have hconsistent : Machine.Consistent ⟨(s.reuse 1).reset crc32cCastagnoli, false, []⟩ :=
    consistent_of_recycled (fun _ _ h => h)
      (hreset.recycled (fun _ _ _ _ _ => trivial) fun _ _ calm => calm)
  -- The tables behind the reset.
  obtain ⟨m, hrun, hrest, -, htasks', -, htables⟩ := Machine.Resting.rounds crc32cCastagnoli
    (m := ⟨(s.reuse 1).reset crc32cCastagnoli, false, []⟩) ⟨rfl, rfl, rfl⟩ hconsistent rfl
    (Machine.fills_replicate 0) (n := 4) le_rfl
  have hfull : kL0CompactionTrigger ≤ (levelAt m.store.levels 0).length := by
    have hcount := congrArg List.length htables
    rw [List.length_map, List.length_range'] at hcount
    exact hcount.ge
  obtain ⟨s', task, hmerge, hqueue, -, hmem⟩ :=
    hrest.merge crc32cCastagnoli (hconsistent.run hrun) hfull
  have hmerged : Machine.RacedCalls crc32cCastagnoli Machine.Drained Machine.Calm
      ({ m with store := s' }, none) :=
    (hreset.run (fun _ _ _ => trivial) hrun).tail (.step ⟨.step (.compact 0), trivial, .step hmerge⟩)
  have hpending : s'.tasks[0]? = some task := by
    have hnone : m.store.tasks = [] := htasks'.trans htasks
    rw [hqueue, hnone]
    rfl
  refine ⟨_, 0, task, hmerged, hpending, fun n hn => ?_, tasks_spent hmerged hpending⟩
  obtain ⟨f, hf, rfl⟩ : ∃ f ∈ levelAt m.store.levels 0, f.fileNumber = n := by
    refine List.mem_map.mp ?_
    rw [htables, List.mem_range'_1]
    exact ⟨Nat.zero_le _, by simpa [Store.reset] using hn⟩
  exact hmem f hf

/-! ## A reset that does not wait -/

/-- Four tables are merged and queued for deletion; then comes a reset, and a new table
gets the number 0 again. -/
theorem Machine.exists_reused (crc32c : Bytes → ℕ) {w : Write} (fills : Fills w) :
    ∃ m task f, Recycled crc32c RegularCall m ∧ m.store.tasks = [task] ∧
      levelAt m.store.levels 0 = [f] ∧ f.fileNumber ∈ task.1 := by
  obtain ⟨m, hrun, hrest, hhist, htasks, -, htables⟩ :=
    Resting.rounds crc32c (m := .new) ⟨rfl, rfl, rfl⟩ .init rfl fills (n := 4) le_rfl
  have hreach : Reachable crc32c Regular m := Reachable.new.run (hrun.mono fun _ _ hm => hm.1)
  have hcount := congrArg List.length htables
  rw [List.length_map, List.length_range'] at hcount
  have hshort : ∀ w' ∈ m.history, w'.key.length ≤ keptKeyLength := by
    intro w' hw
    rw [hhist] at hw
    rw [List.eq_of_mem_replicate hw]
    exact fills.short
  obtain ⟨s, task, hmerge, hqueue, hlogs, hmem⟩ :=
    hrest.merge crc32c (Consistent.init.run hrun) hcount.ge
  have hqueue : s.tasks = [task] := by
    rw [hqueue, htasks]
    rfl
  have hzero : 0 ∈ task.1 := by
    obtain ⟨f, hf, hnumber⟩ : ∃ f ∈ levelAt m.store.levels 0, f.fileNumber = 0 := by
      refine List.mem_map.mp ?_
      rw [htables, List.mem_range'_1]
      exact ⟨le_rfl, Nat.succ_pos 3⟩
    exact hnumber ▸ hmem f hf
  have hreach₁ : Reachable crc32c Regular { m with store := s } :=
    hreach.step (a := .compact 0) ⟨fun _ => hcount.ge, hreach.fitting_compact hshort 0⟩ hmerge
  have howned : (s.reset crc32c).VLogsOwned := by
    refine (vlogsOwned_of_reachable hreach₁).reset crc32c fun task' htask => ?_
    rw [show ({ m with store := s } : Machine).store.tasks = [task] from hqueue,
      List.mem_singleton] at htask
    rw [htask]
    exact hlogs
  have hreset : Recycled crc32c RegularCall ⟨s.reset crc32c, false, []⟩ :=
    .step (c := .reset) hreach₁.recycled trivial (.reset hrest.idle)
  obtain ⟨m', info', hrun', -, -, -, -, -, htasks', hlevels'⟩ :=
    Resting.round crc32c (m := ⟨s.reset crc32c, false, []⟩) ⟨rfl, rfl, rfl⟩ howned
      (SeqOrdered.of_empty rfl rfl (fun _ => rfl) rfl).numbered (Nat.succ_pos 3) fills
  have hlevel : levelAt m'.store.levels 0 = [⟨0, .ofWrite w.key 0 w.type, .ofWrite w.key 0 w.type, 0,
      [⟨.ofWrite w.key 0 w.type, info'⟩]⟩] := by
    rw [hlevels', levelAt_setLevel, if_pos rfl]
    rfl
  exact ⟨m', _, _, hreset.run (hrun'.mono fun _ _ hm => hm.1), htasks'.trans hqueue, hlevel, hzero⟩

/-- **A task that was pending at a reset removes a table written after it.** -/
theorem tasks_not_spent_after_reset :
    ∃ m i task, Machine.Recycled crc32cCastagnoli Machine.RegularCall m ∧
      m.store.tasks[i]? = some task ∧ ¬ m.store.Spent task ∧
      ∃ f ∈ levelAt (m.store.runTask i).levels 0, (m.store.runTask i).sstFiles f.fileNumber = false := by
  obtain ⟨m, task, f, hreach, htasks, hlevel, hmem⟩ :=
    Machine.exists_reused crc32cCastagnoli (Machine.fills_replicate 0)
  have hrun : m.store.tasks[0]? = some task := by simp [htasks]
  refine ⟨m, 0, task, hreach, hrun, fun hspent => ?_, f, ?_, ?_⟩
  · exact hspent.1 _ hmem 0 f (by simp [hlevel]) rfl
  · simp only [Store.runTask, hrun, Store.deleteFiles, hlevel]
    simp
  · simp only [Store.runTask, hrun, Store.deleteFiles]
    simp [hmem]

end Lsmkv
