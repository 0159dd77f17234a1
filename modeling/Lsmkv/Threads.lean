import Lsmkv.LogReuse

/-!
# Writers and the background thread

`put` and `del` run under the writer lock `rwlock_`, but `Prepare` (`src/kvstore.cc`) gives
it away while it sleeps or waits, and the background thread does not take it at all.  A
`System` is the machine of `Lsmkv.Run` together with the lock and with the place in the
code of every writer; the tests of `Prepare` are steps of their own, so that whatever they
saw can be out of date when the writer acts on it.

Two facts make a run of a system a run of the machine (`System.Invariant`): at most one
writer is past the lock, and a writer that found no immutable memtable still finds none
when it hands over, because only a writer sets it.  The other way round, a run of the machine in
which only values are written, and each step is taken when the code takes it, is one of a system
(`System.exists_of_machine`).

A compaction that fails gives its number back in two steps, and the writers go on between them
(`System.racing`).
-/

namespace Lsmkv

open ByteCode Deferring Files Relation

/-- `RWLock`: the writer that holds it, and whether a writer has given it away in
`atomic_wait` and will take it again. -/
structure RWLock where
  holder : Option ℕ
  writerWaiting : Bool

namespace RWLock

/-- `lock()` can succeed. -/
def Free (l : RWLock) : Prop := l.holder = none ∧ l.writerWaiting = false

/-- The lock after `lock()` of a writer. -/
def lock (t : ℕ) : RWLock := ⟨some t, false⟩

/-- The lock after `unlock()`. -/
def unlock : RWLock := ⟨none, false⟩

/-- The lock after `before_wait()`. -/
def beforeWait : RWLock := ⟨none, true⟩

/-- The lock after `after_wait()`. -/
def afterWait (t : ℕ) : RWLock := ⟨some t, true⟩

end RWLock

/-- The tests in the loop of `Prepare`, in order, and the hand-over behind them. -/
inductive Check
  | delay
  | memoryUsage
  | imm
  | level0
  | handOver
  deriving DecidableEq

/-- Where a writer is. -/
inductive Pc
  | idle
  | prepare (w : Write) (allowDelay : Bool) (next : Check)
  | asleep (w : Write)
  | waiting (w : Write) (allowDelay : Bool)
  | write (w : Write)

namespace Pc

/-- The writer holds the lock. -/
def Holding : Pc → Prop
  | .prepare .. | .write _ => True
  | _ => False

/-- The writer has seen that there is no immutable memtable. -/
def SawNoImm : Pc → Prop
  | .prepare _ _ .level0 | .prepare _ _ .handOver => True
  | _ => False

theorem SawNoImm.holding {pc : Pc} (h : pc.SawNoImm) : pc.Holding := by
  cases pc with
  | prepare => trivial
  | _ => exact absurd h (by simp [SawNoImm])

end Pc

/-- The store with its writers. -/
structure System where
  machine : Machine
  lock : RWLock
  pc : ℕ → Pc

namespace System

/-- A store that was just opened, with nobody in a call. -/
def new : System := ⟨.new, .unlock, fun _ => .idle⟩

/-- The steps that need no lock: those of the background thread and the executor, the
reads of the value log, and `ExpireAt`. -/
def Unlocked : Action → Prop
  | .write .. | .handOver => False
  | _ => True

/-- The level-0 trigger, as the tests of `Prepare` see it. -/
def Level0Full (s : Store) : Prop := kL0CompactionTrigger ≤ (levelAt s.levels 0).length

variable (crc32c : Bytes → ℕ) (cond : Machine → Action → Prop)

/-- **One step of a system.**  `cond` restricts what is written, and the steps without the lock. -/
inductive Step : System → System → Prop
  | put {sys : System} {t : ℕ} {key value : Bytes} (idle : sys.pc t = .idle) (free : sys.lock.Free) :
      Step sys { sys with
        lock := .lock t
        pc := Function.update sys.pc t (.prepare ⟨key, .kTypeValue, value⟩ true .delay) }
  /-- `del` of a key that `GetImpl` finds. -/
  | del {sys : System} {t : ℕ} {key value : Bytes} (idle : sys.pc t = .idle) (free : sys.lock.Free)
      (found : (sys.machine.store.getImpl crc32c key).1 = .ok value) :
      Step sys { sys with
        machine := { sys.machine with store := (sys.machine.store.getImpl crc32c key).2 }
        lock := .lock t
        pc := Function.update sys.pc t (.prepare ⟨key, .kTypeDeletion, []⟩ true .delay) }
  /-- `get`, or `del` of a key that `GetImpl` does not find. -/
  | get {sys : System} {key : Bytes} (free : sys.lock.holder = none) :
      Step sys { sys with
        machine := { sys.machine with store := (sys.machine.store.getImpl crc32c key).2 } }
  | delay {sys : System} {t : ℕ} {w : Write} (here : sys.pc t = .prepare w true .delay)
      (full : Level0Full sys.machine.store) :
      Step sys { sys with lock := .unlock, pc := Function.update sys.pc t (.asleep w) }
  | awake {sys : System} {t : ℕ} {w : Write} (here : sys.pc t = .asleep w) (free : sys.lock.Free) :
      Step sys { sys with
        lock := .lock t, pc := Function.update sys.pc t (.prepare w false .delay) }
  | noDelay {sys : System} {t : ℕ} {w : Write} {allowDelay : Bool}
      (here : sys.pc t = .prepare w allowDelay .delay)
      (no : ¬ (allowDelay = true ∧ Level0Full sys.machine.store)) :
      Step sys { sys with pc := Function.update sys.pc t (.prepare w allowDelay .memoryUsage) }
  | room {sys : System} {t : ℕ} {w : Write} {allowDelay : Bool}
      (here : sys.pc t = .prepare w allowDelay .memoryUsage)
      (room : sys.machine.store.mem.memoryUsage ≤ Store.memMaxSize) :
      Step sys { sys with pc := Function.update sys.pc t (.write w) }
  | noRoom {sys : System} {t : ℕ} {w : Write} {allowDelay : Bool}
      (here : sys.pc t = .prepare w allowDelay .memoryUsage)
      (full : Store.memMaxSize < sys.machine.store.mem.memoryUsage) :
      Step sys { sys with pc := Function.update sys.pc t (.prepare w allowDelay .imm) }
  | noImm {sys : System} {t : ℕ} {w : Write} {allowDelay : Bool}
      (here : sys.pc t = .prepare w allowDelay .imm) (none : sys.machine.store.imm = none) :
      Step sys { sys with pc := Function.update sys.pc t (.prepare w allowDelay .level0) }
  | level0Room {sys : System} {t : ℕ} {w : Write} {allowDelay : Bool}
      (here : sys.pc t = .prepare w allowDelay .level0)
      (room : ¬ Level0Full sys.machine.store) :
      Step sys { sys with pc := Function.update sys.pc t (.prepare w allowDelay .handOver) }
  /-- `atomic_wait` that returns at once; its callers saw an immutable memtable or a full
  level 0. -/
  | again {sys : System} {t : ℕ} {w : Write} {allowDelay : Bool} {next : Check}
      (here : sys.pc t = .prepare w allowDelay next)
      (busy : (next = .imm ∧ sys.machine.store.imm ≠ none) ∨
        (next = .level0 ∧ Level0Full sys.machine.store)) :
      Step sys { sys with pc := Function.update sys.pc t (.prepare w allowDelay .delay) }
  /-- `atomic_wait` that gives the lock away. -/
  | wait {sys : System} {t : ℕ} {w : Write} {allowDelay : Bool} {next : Check}
      (here : sys.pc t = .prepare w allowDelay next)
      (busy : (next = .imm ∧ sys.machine.store.imm ≠ none) ∨
        (next = .level0 ∧ Level0Full sys.machine.store)) :
      Step sys { sys with
        lock := .beforeWait, pc := Function.update sys.pc t (.waiting w allowDelay) }
  | waited {sys : System} {t : ℕ} {w : Write} {allowDelay : Bool}
      (here : sys.pc t = .waiting w allowDelay) (free : sys.lock.holder = none) :
      Step sys { sys with
        lock := .afterWait t, pc := Function.update sys.pc t (.prepare w allowDelay .delay) }
  | handOver {sys : System} {t : ℕ} {w : Write} {allowDelay : Bool} {s : Store}
      (here : sys.pc t = .prepare w allowDelay .handOver)
      (ok : sys.machine.store.handOver = .ok s) :
      Step sys { sys with
        machine := { sys.machine with store := s }
        pc := Function.update sys.pc t (.prepare w allowDelay .delay) }
  /-- `WriteImpl`, which acknowledges the write and unlocks. -/
  | write {sys : System} {t : ℕ} {w : Write} {garbage : VLogEntryInfo} {height : ℕ} {s : Store}
      (here : sys.pc t = .write w) (meets : cond sys.machine (.write w garbage height))
      (ok : sys.machine.store.writeImpl crc32c w garbage height = .ok s) :
      Step sys { sys with
        machine := ⟨s, sys.machine.flushed, sys.machine.history ++ [w]⟩
        lock := .unlock
        pc := Function.update sys.pc t .idle }
  | background {sys : System} {a : Action} {m : Machine} (unlocked : Unlocked a)
      (meets : cond sys.machine a) (taken : Machine.Step crc32c sys.machine a m) : Step sys { sys with machine := m }

/-- The systems that a run can reach. -/
inductive Reachable : System → Prop
  | new : Reachable .new
  | step {sys sys' : System} (reached : Reachable sys) (taken : Step crc32c cond sys sys') :
      Reachable sys'

variable {crc32c cond} in
theorem Reachable.of_run {sys : System} (run : ReflTransGen (Step crc32c cond) .new sys) :
    Reachable crc32c cond sys := by
  induction run with
  | refl => exact .new
  | tail _ taken ih => exact .step ih taken

/-! ## Systems are machines -/

/-- The condition on the steps of the machine: reads and hand-overs are not restricted. -/
def Meets (cond : Machine → Action → Prop) (m : Machine) : Action → Prop
  | .read _ | .handOver => True
  | a => cond m a

theorem Meets.of_cond {cond : Machine → Action → Prop} {m : Machine} {a : Action} (h : cond m a) :
    Meets cond m a := by
  cases a with
  | read | handOver => trivial
  | _ => exact h

variable {crc32c cond}

/-- What a step without the lock does to the immutable memtable: nothing, except that the
background thread releases it when it is flushed. -/
theorem imm_of_unlocked {m m' : Machine} {a : Action} (unlocked : Unlocked a)
    (taken : Machine.Step crc32c m a m') :
    m'.store.imm = m.store.imm ∨ (m.flushed = true ∧ m'.store.imm = none) := by
  have hquiet : a.Quiet → m'.store.imm = m.store.imm := fun hq => (taken.quiet hq).1.imm
  cases taken with
  | write | handOver => exact absurd unlocked (by simp [Unlocked])
  | flush idle full ok =>
      obtain ⟨e, es, -, rfl⟩ := Store.writeLevel0Table_cases ok
      exact .inl rfl
  | clearImm done => exact .inr ⟨done, rfl⟩
  | compact idle ok =>
      simp only [Store.compactLevel] at ok
      split at ok
      · rw [← Outcome.ok.inj ok]
        exact .inl rfl
      · obtain ⟨r, -, hok⟩ := Outcome.bind_eq_ok.mp ok
        rw [← Outcome.ok.inj hok]
        exact .inl rfl
  | _ => exact .inl (hquiet trivial)

/-- **The invariant of a system.** -/
structure Invariant (crc32c : Bytes → ℕ) (cond : Machine → Action → Prop) (sys : System) :
    Prop where
  reached : Machine.Reachable crc32c (Meets cond) sys.machine
  exclusive : ∀ t, (sys.pc t).Holding → sys.lock.holder = some t
  sawNoImm : ∀ t, (sys.pc t).SawNoImm → sys.machine.store.imm = none

namespace Invariant

variable {sys : System}

theorem init : Invariant crc32c cond .new where
  reached := .new
  exclusive t h := absurd h (by simp [System.new, Pc.Holding])
  sawNoImm t h := absurd h (by simp [System.new, Pc.SawNoImm])

/-- A step of one writer. -/
theorem move (h : Invariant crc32c cond sys) {t : ℕ} {machine : Machine} {lock : RWLock} {pc : Pc}
    (reached : Machine.Reachable crc32c (Meets cond) machine)
    (others : ∀ t', t' ≠ t → (sys.pc t').Holding →
      lock.holder = some t' ∧ machine.store.imm = sys.machine.store.imm)
    (holding : pc.Holding → lock.holder = some t)
    (sawNoImm : pc.SawNoImm → machine.store.imm = none) :
    Invariant crc32c cond ⟨machine, lock, Function.update sys.pc t pc⟩ := by
  refine ⟨reached, fun t' ht' => ?_, fun t' ht' => ?_⟩
  · by_cases heq : t' = t
    · subst heq
      simp only [Function.update_self] at ht'
      exact holding ht'
    · simp only [Function.update_of_ne heq] at ht'
      exact (others t' heq ht').1
  · by_cases heq : t' = t
    · subst heq
      simp only [Function.update_self] at ht'
      exact sawNoImm ht'
    · simp only [Function.update_of_ne heq] at ht'
      rw [(others t' heq ht'.holding).2]
      exact h.sawNoImm t' ht'

/-- Nobody else is past the lock while a writer is. -/
theorem others_of_holding (h : Invariant crc32c cond sys) {t : ℕ} (here : (sys.pc t).Holding)
    {P : ℕ → Prop} : ∀ t', t' ≠ t → (sys.pc t').Holding → P t' := by
  intro t' hne ht'
  have heq := (h.exclusive t' ht').symm.trans (h.exclusive t here)
  exact absurd (Option.some.inj heq) hne

/-- Nobody is past a lock that has no holder. -/
theorem others_of_free (h : Invariant crc32c cond sys) (free : sys.lock.holder = none)
    {P : ℕ → Prop} (t : ℕ) : ∀ t', t' ≠ t → (sys.pc t').Holding → P t' := by
  intro t' _ ht'
  have heq := (h.exclusive t' ht').symm.trans free
  exact absurd heq (by simp)

/-- The writer goes on in `Prepare`, holding the lock. -/
theorem next (h : Invariant crc32c cond sys) {t : ℕ} {w : Write} {allowDelay : Bool} {c : Check}
    (here : sys.pc t = .prepare w allowDelay c) {pc : Pc}
    (sawNoImm : pc.SawNoImm → sys.machine.store.imm = none) :
    Invariant crc32c cond { sys with pc := Function.update sys.pc t pc } := by
  have hhold : (sys.pc t).Holding := by simp [here, Pc.Holding]
  exact h.move h.reached (h.others_of_holding hhold) (fun _ => h.exclusive t hhold) sawNoImm

/-- Reads leave the memtables alone. -/
theorem get (h : Invariant crc32c cond sys) (key : Bytes) :
    Machine.Reachable crc32c (Meets cond)
        { sys.machine with store := (sys.machine.store.getImpl crc32c key).2 } ∧
      (sys.machine.store.getImpl crc32c key).2.imm = sys.machine.store.imm := by
  rcases sys.machine.store.getImpl_snd crc32c key with heq | ⟨info, heq⟩
  · rw [heq]
    exact ⟨h.reached, rfl⟩
  · obtain ⟨handles, hhandles⟩ := sys.machine.store.readValue_handles crc32c info
    have hread : Machine.Step crc32c sys.machine (.read info)
        { sys.machine with store := (sys.machine.store.readValue crc32c info).2 } := .read
    rw [heq]
    exact ⟨.step h.reached (a := .read info) trivial hread, by rw [hhandles]⟩

/-- **Every step keeps the invariant.** -/
theorem step (h : Invariant crc32c cond sys) {sys' : System} (taken : Step crc32c cond sys sys') :
    Invariant crc32c cond sys' := by
  cases taken with
  | @put t key value idle free =>
      exact h.move h.reached (h.others_of_free free.1 t) (fun _ => rfl) (by simp [Pc.SawNoImm])
  | @del t key value idle free found =>
      exact h.move (h.get key).1 (h.others_of_free free.1 t) (fun _ => rfl) (by simp [Pc.SawNoImm])
  | @get key free =>
      obtain ⟨hreached, himm⟩ := h.get key
      exact ⟨hreached, h.exclusive, fun t ht => himm.trans (h.sawNoImm t ht)⟩
  | @delay t w here full =>
      have hhold : (sys.pc t).Holding := by simp [here, Pc.Holding]
      exact h.move h.reached (h.others_of_holding hhold) (by simp [Pc.Holding]) (by simp [Pc.SawNoImm])
  | @awake t w here free =>
      exact h.move h.reached (h.others_of_free free.1 t) (fun _ => rfl) (by simp [Pc.SawNoImm])
  | noDelay here no => exact h.next here (by simp [Pc.SawNoImm])
  | room here room => exact h.next here (by simp [Pc.SawNoImm])
  | noRoom here full => exact h.next here (by simp [Pc.SawNoImm])
  | noImm here none => exact h.next here fun _ => none
  | @level0Room t w allowDelay here room =>
      exact h.next here fun _ => h.sawNoImm t (by simp [here, Pc.SawNoImm])
  | again here busy => exact h.next here (by simp [Pc.SawNoImm])
  | @wait t w allowDelay c here busy =>
      have hhold : (sys.pc t).Holding := by simp [here, Pc.Holding]
      exact h.move h.reached (h.others_of_holding hhold) (by simp [Pc.Holding]) (by simp [Pc.SawNoImm])
  | @waited t w allowDelay here free =>
      exact h.move h.reached (h.others_of_free free t) (fun _ => rfl) (by simp [Pc.SawNoImm])
  | @handOver t w allowDelay s here ok =>
      have hhold : (sys.pc t).Holding := by simp [here, Pc.Holding]
      exact h.move (.step h.reached (a := .handOver) trivial (.handOver ok)) (h.others_of_holding hhold)
        (fun _ => h.exclusive t hhold) (by simp [Pc.SawNoImm])
  | @write t w garbage height s here meets ok =>
      have hhold : (sys.pc t).Holding := by simp [here, Pc.Holding]
      exact h.move (.step h.reached (a := .write w garbage height) meets (.write ok))
        (h.others_of_holding hhold) (by simp [Pc.Holding]) (by simp [Pc.SawNoImm])
  | @background a m unlocked meets taken =>
      refine ⟨.step h.reached (Meets.of_cond meets) taken, h.exclusive, fun t ht => ?_⟩
      rcases imm_of_unlocked unlocked taken with heq | ⟨-, hnone⟩
      · exact heq.trans (h.sawNoImm t ht)
      · exact hnone

end Invariant

theorem invariant_of_reachable {sys : System} (h : Reachable crc32c cond sys) :
    Invariant crc32c cond sys := by
  induction h with
  | new => exact .init
  | step _ taken ih => exact ih.step taken

end System

/-! ## Machines are systems -/

namespace System

/-- A lone writer is out of its calls, or at the start of `Prepare` with the write. -/
def Rests (crc32c : Bytes → ℕ) (cond : Machine → Action → Prop) (start : System) (m : Machine)
    (w : Write) : Prop :=
  ReflTransGen (Step crc32c cond) start ⟨m, .unlock, fun _ => .idle⟩ ∨
    ∃ allowDelay, ReflTransGen (Step crc32c cond) start
      ⟨m, .lock 0, Function.update (fun _ => .idle) 0 (.prepare w allowDelay .delay)⟩

namespace Rests

variable {cond : Machine → Action → Prop} {start : System} {m : Machine} {w : Write}

/-- The writer comes to the test of the memory, after a sleep if level 0 is full. -/
theorem prepare (h : Rests crc32c cond start m w) (value : w.type = .kTypeValue) :
    ∃ allowDelay, ReflTransGen (Step crc32c cond) start
      ⟨m, .lock 0, Function.update (fun _ => .idle) 0 (.prepare w allowDelay .memoryUsage)⟩ := by
  obtain ⟨allowDelay, hstart⟩ : ∃ allowDelay, ReflTransGen (Step crc32c cond) start
      ⟨m, .lock 0, Function.update (fun _ => .idle) 0 (.prepare w allowDelay .delay)⟩ := by
    rcases h with h | h
    · obtain ⟨key, type, bytes⟩ := w
      obtain rfl : type = .kTypeValue := value
      exact ⟨true, h.tail (.put (t := 0) rfl ⟨rfl, rfl⟩)⟩
    · exact h
  by_cases hdelay : allowDelay = true ∧ Level0Full m.store
  · obtain ⟨rfl, hfull⟩ := hdelay
    have hasleep := hstart.tail (.delay (t := 0) (w := w) rfl hfull)
    have hawake := hasleep.tail (.awake (t := 0) (w := w) rfl ⟨rfl, rfl⟩)
    have hchecked := hawake.tail
      (.noDelay (t := 0) (show _ = Pc.prepare w false .delay from rfl) (by simp))
    exact ⟨false, by simpa using hchecked⟩
  · have hchecked := hstart.tail
      (.noDelay (t := 0) (show _ = Pc.prepare w allowDelay .delay from rfl) hdelay)
    exact ⟨allowDelay, by simpa using hchecked⟩

/-- The writer writes. -/
theorem write (h : Rests crc32c cond start m w) (value : w.type = .kTypeValue)
    (room : m.store.mem.memoryUsage ≤ Store.memMaxSize) {garbage : VLogEntryInfo} {height : ℕ}
    (meets : cond m (.write w garbage height)) {s : Store}
    (ok : m.store.writeImpl crc32c w garbage height = .ok s) :
    ReflTransGen (Step crc32c cond) start
      ⟨⟨s, m.flushed, m.history ++ [w]⟩, .unlock, fun _ => .idle⟩ := by
  obtain ⟨allowDelay, hchecked⟩ := h.prepare value
  have hroom := hchecked.tail (.room (t := 0) (w := w) rfl room)
  have hwritten := hroom.tail (.write (t := 0) (w := w) rfl meets ok)
  simpa using hwritten

/-- The writer hands the memtable over. -/
theorem handOver (h : Rests crc32c cond start m w) (value : w.type = .kTypeValue)
    (full : Store.memMaxSize < m.store.mem.memoryUsage) (room : ¬ Level0Full m.store) {s : Store}
    (ok : m.store.handOver = .ok s) : Rests crc32c cond start { m with store := s } w := by
  obtain ⟨allowDelay, hchecked⟩ := h.prepare value
  have hnone : m.store.imm = none := (Store.handOver_cases ok).1
  have hfull := hchecked.tail
    (.noRoom (t := 0) (show _ = Pc.prepare w allowDelay .memoryUsage from rfl) full)
  have himm := hfull.tail
    (.noImm (t := 0) (show _ = Pc.prepare w allowDelay .imm by simp) hnone)
  have hlevel := himm.tail
    (.level0Room (t := 0) (show _ = Pc.prepare w allowDelay .level0 by simp) room)
  have hhanded := hlevel.tail
    (.handOver (t := 0) (show _ = Pc.prepare w allowDelay .handOver by simp) ok)
  exact .inr ⟨allowDelay, by simpa using hhanded⟩

/-- The other threads do something. -/
theorem background (h : Rests crc32c cond start m w) {a : Action} (unlocked : Unlocked a)
    (meets : cond m a) {m' : Machine} (taken : Machine.Step crc32c m a m') :
    Rests crc32c cond start m' w := by
  rcases h with h | ⟨allowDelay, h⟩
  · exact .inl (h.tail (.background unlocked meets taken))
  · exact .inr ⟨allowDelay, h.tail (.background unlocked meets taken)⟩

end Rests

/-- **A run of the machine is one of a system**, if only values are written, every step is taken when
the code takes it and what is written fits.  It may end with any write that is about to be made. -/
theorem rests_of_machine {m : Machine} (h : Machine.Reachable crc32c Machine.Regular m)
    (puts : ∀ w ∈ m.history, w.type = .kTypeValue) {w : Write} (value : w.type = .kTypeValue) :
    Rests crc32c Machine.Fitting .new m w := by
  induction h generalizing w with
  | new => exact .inl .refl
  | @step m m' a _ meets taken ih =>
      have hbackground : Unlocked a → m'.history = m.history → Rests crc32c Machine.Fitting .new m' w := by
        intro unlocked heq
        exact (ih (heq ▸ puts) value).background unlocked meets.2 taken
      cases taken with
      | @write w' garbage height s ok =>
          have hvalue : w'.type = .kTypeValue := puts w' (by simp)
          have hrests := ih (fun w hw => puts w (List.mem_append_left _ hw)) hvalue
          exact .inl (hrests.write hvalue meets.1 meets.2 ok)
      | handOver ok => exact (ih puts value).handOver value meets.1.1 (not_le.mpr meets.1.2) ok
      | _ => exact hbackground trivial rfl

end System

/-! ## No acknowledged write is lost -/

/-- What a reader is to find for a write. -/
def Write.payload (w : Write) : Payload :=
  if w.type = .kTypeValue then .value w.value else .deleted

namespace System

variable {crc32c : Bytes → ℕ} {sys : System}

section Racing

variable {cond between : Machine → Action → Prop}

variable (crc32c cond between) in
/-- **Runs of a system in which a number goes back in two steps.**  The steps between the test and
the store do not wait for the background thread, and meet `between`. -/
def racing : Deferred System ℕ where
  step := Step crc32c cond
  begins sys fileNo sys' := cond sys.machine .compactFail ∧
    ∃ m, sys.machine.GivesBack fileNo m ∧ sys' = { sys with machine := m }
  meanwhile := Step crc32c fun m a => cond m a ∧ between m a ∧ a.Foreground
  settle fileNo sys := { sys with machine := sys.machine.reuse fileNo }

variable (crc32c cond between) in
/-- What such a run reaches: a system, and the number that is about to be stored. -/
def Raced (c : System × Option ℕ) : Prop :=
  ReflTransGen (racing crc32c cond between).Next (.new, none) c

/-- **What is done meanwhile** does not depend on the counter, if no number is taken. -/
theorem Step.reuse (insensitive : Machine.Insensitive cond) (calm : ∀ m a, between m a → m.Calm a)
    {sys' : System} (taken : Step crc32c (fun m a => cond m a ∧ between m a ∧ a.Foreground) sys sys')
    (fileNo : ℕ) :
    Step crc32c cond { sys with machine := sys.machine.reuse fileNo }
      { sys' with machine := sys'.machine.reuse fileNo } := by
  cases taken with
  | put idle free => exact .put idle free
  | @del t key value idle free found =>
      have hget := Store.getImpl_reuse fileNo crc32c sys.machine.store key
      have hfound : ((sys.machine.store.reuse fileNo).getImpl crc32c key).1 = .ok value := by
        rw [hget]
        exact found
      have hstep : Step crc32c cond { sys with machine := sys.machine.reuse fileNo } _ :=
        .del idle free hfound
      simpa only [Machine.reuse, hget] using hstep
  | @get key free =>
      have hget := Store.getImpl_reuse fileNo crc32c sys.machine.store key
      have hstep : Step crc32c cond { sys with machine := sys.machine.reuse fileNo }
          { sys with machine := { sys.machine.reuse fileNo with
            store := ((sys.machine.store.reuse fileNo).getImpl crc32c key).2 } } := .get free
      simpa only [Machine.reuse, hget] using hstep
  | delay here full => exact .delay here full
  | awake here free => exact .awake here free
  | noDelay here no => exact .noDelay here no
  | room here room => exact .room here room
  | noRoom here full => exact .noRoom here full
  | noImm here none => exact .noImm here none
  | level0Room here room => exact .level0Room here room
  | again here busy => exact .again here busy
  | wait here busy => exact .wait here busy
  | waited here free => exact .waited here free
  | handOver here ok => exact .handOver here (Store.handOver_reuse fileNo ok)
  | @write t w garbage height s here meets ok =>
      exact .write here (insensitive fileNo _ _ meets.2.2 meets.1)
        (Store.writeImpl_reuse fileNo (calm _ _ meets.2.1) ok)
  | background unlocked meets taken =>
      exact .background unlocked (insensitive fileNo _ _ meets.2.2 meets.1)
        (taken.reuse meets.2.2 (calm _ _ meets.2.1) fileNo)

theorem racing_commutes (insensitive : Machine.Insensitive cond)
    (calm : ∀ m a, between m a → m.Calm a) : (racing crc32c cond between).Commutes where
  begins := by
    rintro sys _ fileNo ⟨meets, m, back, rfl⟩
    exact .background (a := .compactFail) trivial meets back.step
  meanwhile fileNo taken := taken.reuse insensitive calm fileNo

variable (crc32c cond between) in
/-- The system with what is left stored has the same writers, on a machine with some number
stored. -/
theorem settled_eq_reuse (c : System × Option ℕ) :
    ∃ fileNo, (racing crc32c cond between).settled c =
      { c.1 with machine := c.1.machine.reuse fileNo } := by
  obtain ⟨sys, pending⟩ := c
  cases pending with
  | none => exact ⟨sys.machine.store.lastVlogFileNo, rfl⟩
  | some fileNo => exact ⟨fileNo, rfl⟩

/-- With the number stored, the system is one that a run reaches. -/
theorem Raced.reachable {c : System × Option ℕ} (h : Raced crc32c cond between c)
    (insensitive : Machine.Insensitive cond) (calm : ∀ m a, between m a → m.Calm a) :
    Reachable crc32c cond ((racing crc32c cond between).settled c) :=
  .of_run ((racing_commutes insensitive calm).settled_reachable h)

theorem Reachable.raced (h : Reachable crc32c cond sys) : Raced crc32c cond between (sys, none) := by
  induction h with
  | new => exact .refl
  | step _ taken ih => exact ih.tail (.step taken)

end Racing

theorem fitting_of_meets {m : Machine} {a : Action} (h : Meets Machine.Fitting m a) : m.Fitting a := by
  cases a with
  | write | compact => exact h
  | _ => trivial

/-- What a system holds when every record and every table fits. -/
theorem Invariant.held (h : Invariant crc32c Machine.Fitting sys) {n : ℕ} {w : Write}
    (written : sys.machine.history[n]? = some w) (alive : sys.machine.store.lastLivingSequence ≤ n) :
    ∃ e, sys.machine.store.Holds e ∧ e.key = .ofWrite w.key n w.type ∧
      payload crc32c sys.machine.store.vlogs e = .ok w.payload := by
  have hdurable : Durable crc32c sys.machine :=
    durable_of_reachable (fun m a ha => (fitting_of_meets ha).sized) h.reached
  obtain ⟨e, he, hkey⟩ := (accounted_of_reachable h.reached).complete n w written alive
  refine ⟨e, he, hkey, ?_⟩
  have hseq : e.key.seq = n := by rw [hkey, InternalKey.seq_ofWrite]
  have htype : e.key.type = w.type := by rw [hkey, InternalKey.type_ofWrite]
  by_cases hvalue : w.type = .kTypeValue
  · obtain ⟨w', hw', hres⟩ := hdurable.resolves e he (htype.trans hvalue)
    obtain rfl : w = w' := by
      rw [hseq, written] at hw'
      exact Option.some.inj hw'
    simp [payload, Write.payload, htype, hvalue, readVLog_of_resolves hres]
  · simp [payload, Write.payload, htype, hvalue]

end System

end Lsmkv
