import Lsmkv.PointRead
import Lsmkv.Threads

/-!
# Deletions of several threads

`del` looks the key up under `rwlock_`, and only a key that is found is deleted.  Between
the lookup and the write stands `Prepare`, which gives the lock away when level 0 is full or
the memtable cannot be handed over.  Another thread may then delete the key as well.

`deletions_follow_puts` is about the runs in which no other `del` of the key is acknowledged
while a `del` has given the lock away: there every deletion in the history comes behind a
`put` of its key, with no other write of the key between them.  `two_deletions` is a run in
which two threads delete one key one after the other.
-/

namespace Lsmkv

open ByteCode Files

variable {crc32c : Bytes → ℕ}

/-- The writer is in a call with this write. -/
def Pc.Pending (w : Write) : Pc → Prop
  | .idle => False
  | .prepare w' _ _ | .asleep w' | .waiting w' _ | .write w' => w' = w

/-- The writer is in `Prepare` and has given the lock away. -/
def Pc.Away (w : Write) : Pc → Prop
  | .asleep w' | .waiting w' _ => w' = w
  | _ => False

/-- Every deletion comes behind a `put` of its key, with no other write of it between. -/
def DeletionsFollowPuts (history : List Write) : Prop :=
  ∀ n w, history[n]? = some w → w.type = .kTypeDeletion →
    ∃ w' n', lastWrite (history.take n) w.key = some (w', n') ∧ w'.type = .kTypeValue

/-- The key was written, and last by a `put`. -/
def Present (history : List Write) (u : Bytes) : Prop :=
  ∃ w n, lastWrite history u = some (w, n) ∧ w.type = .kTypeValue

/-- The next write keeps deletions behind `put`s. -/
theorem DeletionsFollowPuts.concat {history : List Write} (h : DeletionsFollowPuts history) {w : Write}
    (present : w.type = .kTypeDeletion → Present history w.key) :
    DeletionsFollowPuts (history ++ [w]) := by
  intro n w' hn htype
  rcases lt_or_ge n history.length with hlt | hge
  · rw [List.getElem?_append_left hlt] at hn
    rw [List.take_append_of_le_length hlt.le]
    exact h n w' hn htype
  · obtain ⟨hlt, hget⟩ := List.getElem?_eq_some_iff.mp hn
    obtain rfl : n = history.length := by
      simp at hlt
      omega
    obtain rfl : w = w' := by simpa using hget
    rw [List.take_left]
    exact present htype

theorem Present.concat {history : List Write} {u : Bytes} (h : Present history u) {w : Write}
    (other : w.type = .kTypeDeletion → w.key ≠ u) : Present (history ++ [w]) u := by
  rw [Present, lastWrite_concat]
  by_cases hkey : w.key = u
  · cases htype : w.type with
    | kTypeValue => exact ⟨w, _, if_pos hkey, htype⟩
    | kTypeDeletion => exact absurd hkey (other htype)
  · rw [if_neg hkey]
    exact h

namespace System

/-- In this step no deletion is acknowledged while another thread has given the lock away
between its lookup of the key and its write. -/
def Alone (sys sys' : System) : Prop :=
  ∀ w, sys'.machine.history = sys.machine.history ++ [w] → w.type = .kTypeDeletion →
    ∀ t w', (sys'.pc t).Away w' → w'.type = .kTypeDeletion → w.key ≠ w'.key

/-- The systems that an orderly run without `ExpireAt` can reach in which deletions of a key do not
cross. -/
inductive SteadyReachable (crc32c : Bytes → ℕ) : System → Prop
  | new : SteadyReachable crc32c .new
  | step {sys sys' : System} (reached : SteadyReachable crc32c sys)
      (taken : Step crc32c Machine.Unexpired sys sys') (alone : Alone sys sys') :
      SteadyReachable crc32c sys'

theorem SteadyReachable.reachable {sys : System} (h : SteadyReachable crc32c sys) :
    Reachable crc32c Machine.Unexpired sys := by
  induction h with
  | new => exact .new
  | step _ taken _ ih => exact .step ih taken

theorem SteadyReachable.machine {sys : System} (h : SteadyReachable crc32c sys) :
    Machine.Reachable crc32c Machine.Unexpired sys.machine := by
  refine (invariant_of_reachable h.reachable).reached.mono fun m a meets => ?_
  cases a with
  | read | handOver => exact ⟨⟨trivial, trivial, trivial⟩, by simp⟩
  | _ => exact meets

/-- A key that `GetImpl` finds is present. -/
theorem present_of_found {m : Machine} (reached : Machine.Reachable crc32c Machine.Unexpired m)
    {u value : Bytes} (found : (m.store.getImpl crc32c u).1 = .ok value) : Present m.history u := by
  have h : Intact crc32c m := intact_of_reachable (fun _ _ hm => hm.1) reached
  cases hlast : lastWrite m.history u with
  | none =>
      have hmiss := h.firstHit_eq_none hlast
      rw [h.getImpl_of_none hmiss] at found
      exact absurd found (by simp)
  | some p =>
      obtain ⟨w, n⟩ := p
      have hlive := Machine.Unexpired.live reached
      cases htype : w.type with
      | kTypeValue => exact ⟨w, n, hlast, htype⟩
      | kTypeDeletion =>
          rw [(h.getImpl_alive hlast (by omega)).2.2 htype] at found
          exact absurd found (by simp)

/-- **The invariant of such runs.**  The key that a thread is about to delete is present. -/
structure Deleting (sys : System) : Prop where
  pending : ∀ t w, (sys.pc t).Pending w → w.type = .kTypeDeletion →
    Present sys.machine.history w.key
  follow : DeletionsFollowPuts sys.machine.history

namespace Deleting

variable {sys : System}

theorem init : Deleting .new where
  pending t w ht := absurd ht (by simp [System.new, Pc.Pending])
  follow n w hn := by simp [System.new, Machine.new] at hn

/-- A step of one thread that writes nothing. -/
theorem move (h : Deleting sys) {t : ℕ} {machine : Machine} {lock : RWLock} {pc : Pc}
    (history : machine.history = sys.machine.history)
    (own : ∀ w, pc.Pending w → w.type = .kTypeDeletion → Present sys.machine.history w.key) :
    Deleting ⟨machine, lock, Function.update sys.pc t pc⟩ := by
  refine ⟨fun t' w hpending htype => ?_, by rw [history]; exact h.follow⟩
  rw [history]
  by_cases heq : t' = t
  · subst heq
    simp only [Function.update_self] at hpending
    exact own w hpending htype
  · simp only [Function.update_of_ne heq] at hpending
    exact h.pending t' w hpending htype

/-- A thread goes on with its write. -/
theorem next (h : Deleting sys) {t : ℕ} {w : Write} (here : (sys.pc t).Pending w)
    {machine : Machine} {lock : RWLock} {pc : Pc} (history : machine.history = sys.machine.history)
    (same : ∀ w', pc.Pending w' → w' = w) :
    Deleting ⟨machine, lock, Function.update sys.pc t pc⟩ := by
  refine h.move history fun w' hpending htype => ?_
  obtain rfl := same w' hpending
  exact h.pending t w' here htype

/-- **An acknowledged write keeps the invariant**, if no other thread is about to delete the
same key. -/
theorem write (h : Deleting sys) {t : ℕ} {w : Write} {s : Store} (here : sys.pc t = .write w)
    (alone : w.type = .kTypeDeletion → ∀ t' ≠ t, ∀ w', (sys.pc t').Pending w' →
      w'.type = .kTypeDeletion → w.key ≠ w'.key) :
    Deleting ⟨⟨s, sys.machine.flushed, sys.machine.history ++ [w]⟩, .unlock,
      Function.update sys.pc t .idle⟩ := by
  refine ⟨fun t' w' hpending htype => ?_, h.follow.concat fun htype => ?_⟩
  · by_cases heq : t' = t
    · subst heq
      simp [Pc.Pending] at hpending
    · simp only [Function.update_of_ne heq] at hpending
      exact (h.pending t' w' hpending htype).concat fun hdel => alone hdel t' heq w' hpending htype
  · exact h.pending t w (by simp [here, Pc.Pending]) htype

/-- **Every step keeps the invariant.** -/
theorem step (h : Deleting sys) (inv : Invariant crc32c Machine.Unexpired sys)
    (orderly : Machine.Reachable crc32c Machine.Unexpired sys.machine) {sys' : System}
    (taken : Step crc32c Machine.Unexpired sys sys') (alone : Alone sys sys') : Deleting sys' := by
  cases taken with
  | put idle free =>
      refine h.move rfl fun w hpending htype => ?_
      rw [← hpending] at htype
      exact absurd htype (by simp)
  | @del t key value idle free found =>
      refine h.move rfl fun w hpending _ => ?_
      rw [← hpending]
      exact present_of_found orderly found
  | get free => exact ⟨h.pending, h.follow⟩
  | delay here | awake here | noDelay here | room here | noRoom here | noImm here
  | level0Room here | again here | wait here | waited here | handOver here =>
      exact h.next (by rw [here]; rfl) rfl fun w' hw' => hw'.symm
  | @write t w garbage height s here _ ok =>
      refine h.write here fun htype t' hne w' hpending htype' => ?_
      by_cases hholding : (sys.pc t').Holding
      · exact (inv.others_of_holding (by simp [here, Pc.Holding]) (P := fun _ => False) t' hne
          hholding).elim
      · refine alone w rfl htype t' w' ?_ htype'
        simp only [Function.update_of_ne hne]
        cases hpc : sys.pc t' with
        | idle => simp [hpc, Pc.Pending] at hpending
        | prepare | write => simp [hpc, Pc.Holding] at hholding
        | asleep | waiting => simpa [hpc, Pc.Pending, Pc.Away] using hpending
  | @background a m unlocked _ taken =>
      have hhistory : m.history = sys.machine.history := by
        have hquiet : a.Quiet → m.history = sys.machine.history := fun hq => (taken.quiet hq).2.2.1
        cases taken with
        | write | handOver => exact absurd unlocked (by simp [Unlocked])
        | flush | clearImm | compact => rfl
        | _ => exact hquiet trivial
      refine ⟨?_, ?_⟩
      · rw [hhistory]
        exact h.pending
      · rw [hhistory]
        exact h.follow

end Deleting

/-- **Only keys that are present are deleted**, in runs in which deletions of a key do not
cross: every deletion in the history comes behind a `put` of its key, with no other write of
the key between. -/
theorem deletions_follow_puts {sys : System} (reached : SteadyReachable crc32c sys) :
    DeletionsFollowPuts sys.machine.history := by
  have hinv : Deleting sys := by
    induction reached with
    | new => exact .init
    | step reached taken alone ih =>
        exact ih.step (invariant_of_reachable reached.reachable) reached.machine taken alone
  exact hinv.follow

/-- A step that leaves the machine alone. -/
theorem SteadyReachable.same {sys sys' : System} (h : SteadyReachable crc32c sys)
    (taken : Step crc32c Machine.Unexpired sys sys') (same : sys'.machine = sys.machine) :
    SteadyReachable crc32c sys' := by
  refine h.step taken fun w hw => ?_
  rw [same] at hw
  exact absurd (congrArg List.length hw) (by simp)

/-- A writer that is alone goes through `Prepare` and writes. -/
theorem SteadyReachable.writes {m : Machine} {pc : ℕ → Pc} {t : ℕ} {w : Write} (fits : w.Fits)
    (nobody : ∀ t' w', ¬ (pc t').Away w') (level0 : ¬ Level0Full m.store)
    (room : m.store.mem.memoryUsage ≤ Store.memMaxSize)
    (small : m.store.lastSequence ≤ kMaxSequenceNumber)
    (h : SteadyReachable crc32c ⟨m, .lock t, Function.update pc t (.prepare w true .delay)⟩)
    {s : Store} (ok : m.store.writeImpl crc32c w .zero 1 = .ok s) :
    SteadyReachable crc32c
      ⟨⟨s, m.flushed, m.history ++ [w]⟩, .unlock, Function.update pc t .idle⟩ := by
  have h₁ : SteadyReachable crc32c
      ⟨m, .lock t, Function.update pc t (.prepare w true .memoryUsage)⟩ := by
    simpa using h.same (.noDelay (t := t) (Function.update_self _ _ _) fun hd => level0 hd.2) rfl
  have h₂ : SteadyReachable crc32c ⟨m, .lock t, Function.update pc t (.write w)⟩ := by
    simpa using h₁.same (.room (t := t) (Function.update_self _ _ _) room) rfl
  have taken : Step crc32c Machine.Unexpired ⟨m, .lock t, Function.update pc t (.write w)⟩
      ⟨⟨s, m.flushed, m.history ++ [w]⟩, .unlock,
        Function.update (Function.update pc t (.write w)) t .idle⟩ :=
    .write (t := t) (Function.update_self _ _ _) ⟨⟨small, trivial, fits⟩, by simp⟩ ok
  rw [Function.update_idem] at taken
  refine h₂.step taken fun _ _ _ t' w' haway => absurd haway ?_
  by_cases heq : t' = t
  · subst heq
    simp [Pc.Away]
  · simpa only [Function.update_of_ne heq] using nobody t' w'

/-- One thread writes a key and deletes it. -/
theorem deletions_follow_puts_one_thread :
    ∃ sys, SteadyReachable crc32cCastagnoli sys ∧
      sys.machine.history = [⟨[1], .kTypeValue, [9]⟩, ⟨[1], .kTypeDeletion, []⟩] ∧
      DeletionsFollowPuts sys.machine.history := by
  have hlevel0 : ¬ Level0Full Store.new := by
    simp [Level0Full, kL0CompactionTrigger]
  obtain ⟨s, ok⟩ :=
    Store.VLogsOwned.init.writeImpl_isOk crc32cCastagnoli ⟨[1], .kTypeValue, [9]⟩ .zero 1
  obtain ⟨⟨info, hmem⟩, himm, hlevels, -, hseq, hlive⟩ := Store.writeImpl_fields ok
  have hput : SteadyReachable crc32cCastagnoli ⟨.new, .lock 0,
      Function.update (fun _ => .idle) 0 (.prepare ⟨[1], .kTypeValue, [9]⟩ true .delay)⟩ :=
    SteadyReachable.new.same (.put (t := 0) rfl ⟨rfl, rfl⟩) rfl
  have hwritten : SteadyReachable crc32cCastagnoli
      ⟨⟨s, false, [⟨[1], .kTypeValue, [9]⟩]⟩, .unlock, fun _ => .idle⟩ := by
    simpa [Machine.new] using hput.writes (by decide) (by simp [Pc.Away]) hlevel0
      (by decide) (by decide) ok
  -- The lookup of `del`.
  have hintact := intact_of_reachable (fun _ _ hm => hm.1) hwritten.machine
  have hfound : (s.getImpl crc32cCastagnoli [1]).1 = .ok [9] := by
    refine (hintact.getImpl_alive (u := [1]) (n := 0) rfl hlive.le).1 rfl fun hserved => ?_
    obtain ⟨-, imm, himm', -⟩ := hserved
    exact absurd (himm.symm.trans himm') (by simp [Store.new])
  have hdel : SteadyReachable crc32cCastagnoli
      ⟨⟨(s.getImpl crc32cCastagnoli [1]).2, false, [⟨[1], .kTypeValue, [9]⟩]⟩, .lock 0,
        Function.update (fun _ => .idle) 0 (.prepare ⟨[1], .kTypeDeletion, []⟩ true .delay)⟩ := by
    refine hwritten.step (.del (t := 0) rfl ⟨rfl, rfl⟩ hfound) fun w hw => ?_
    exact absurd (congrArg List.length hw) (by simp)
  obtain ⟨s', ok'⟩ := (vlogsOwned_of_reachable hdel.machine).writeImpl_isOk crc32cCastagnoli
    ⟨[1], .kTypeDeletion, []⟩ .zero 1
  obtain ⟨handles, hs⟩ := s.getImpl_handles crc32cCastagnoli [1]
  have hdeleted : SteadyReachable crc32cCastagnoli
      ⟨⟨s', false, [⟨[1], .kTypeValue, [9]⟩, ⟨[1], .kTypeDeletion, []⟩]⟩, .unlock,
        fun _ => .idle⟩ := by
    simpa using hdel.writes (by decide) (by simp [Pc.Away])
      (by rw [hs, Level0Full, hlevels]; exact hlevel0) (by
        rw [hs, hmem]
        simp [MemTable.put, MemTable.new, MemTable.memoryUsage, MemTable.nodeSize, MemTable.maxLevel,
          Store.new, Store.memMaxSize])
      (by rw [hs, hseq]; decide) ok'
  exact ⟨_, hdeleted, rfl, deletions_follow_puts hdeleted⟩

/-! ## Two threads delete one key -/

section Runs

variable {cond : Machine → Action → Prop} {m : Machine} {pc : ℕ → Pc} {t : ℕ} {w : Write}

/-- A thread that finds a key and level 0 full goes to sleep before it deletes. -/
theorem Reachable.sleeps {key value : Bytes} (h : Reachable crc32c cond ⟨m, .unlock, pc⟩)
    (idle : pc t = .idle) (found : (m.store.getImpl crc32c key).1 = .ok value)
    (full : Level0Full m.store) :
    ∃ handles, Reachable crc32c cond ⟨{ m with store := { m.store with handles := handles } },
      .unlock, Function.update pc t (.asleep ⟨key, .kTypeDeletion, []⟩)⟩ := by
  obtain ⟨handles, hs⟩ := m.store.getImpl_handles crc32c key
  have h₁ : Reachable crc32c cond ⟨{ m with store := { m.store with handles := handles } }, .lock t,
      Function.update pc t (.prepare ⟨key, .kTypeDeletion, []⟩ true .delay)⟩ := by
    simpa only [hs] using h.step (.del (t := t) idle ⟨rfl, rfl⟩ found)
  refine ⟨handles, ?_⟩
  simpa using h₁.step (.delay (t := t) (w := ⟨key, .kTypeDeletion, []⟩)
    (Function.update_self _ _ _) full)

/-- A thread that wakes up and finds room writes. -/
theorem Reachable.wakes (h : Reachable crc32c cond ⟨m, .unlock, pc⟩) (asleep : pc t = .asleep w)
    (room : m.store.mem.memoryUsage ≤ Store.memMaxSize) (meets : cond m (.write w .zero 1)) {s : Store}
    (ok : m.store.writeImpl crc32c w .zero 1 = .ok s) :
    Reachable crc32c cond
      ⟨⟨s, m.flushed, m.history ++ [w]⟩, .unlock, Function.update pc t .idle⟩ := by
  have h₁ : Reachable crc32c cond
      ⟨m, .lock t, Function.update pc t (.prepare w false .memoryUsage)⟩ := by
    simpa using (h.step (.awake (t := t) asleep ⟨rfl, rfl⟩)).step
      (.noDelay (t := t) (Function.update_self _ _ _) (by simp))
  have h₂ : Reachable crc32c cond ⟨m, .lock t, Function.update pc t (.write w)⟩ := by
    simpa using h₁.step (.room (t := t) (Function.update_self _ _ _) room)
  simpa using h₂.step (.write (t := t) (Function.update_self _ _ _) meets ok)

end Runs

/-- Nobody is in a call, level 0 is full, and the memtable holds one `put`. -/
structure Loaded (crc32c : Bytes → ℕ) (m : Machine) (w : Write) : Prop where
  reached : Reachable crc32c Machine.Fitting ⟨m, .unlock, fun _ => .idle⟩
  level0 : Level0Full m.store
  live : m.store.lastLivingSequence = 0
  last : m.history.getLast? = some w
  mem : ∃ info, m.store.mem
    = MemTable.new.put (.ofWrite w.key (m.history.length - 1) w.type) info 1

/-- Four `put`s that fill the memtable, and one more. -/
theorem exists_loaded (crc32c : Bytes → ℕ) {big w : Write} (fills : Machine.Fills big) (fits : w.Fits)
    (value : w.type = .kTypeValue) :
    ∃ m, Loaded crc32c m w ∧ m.history = List.replicate 4 big ++ [w] := by
  obtain ⟨m, hreach, hrest, hhist, hlive, -, -, -, -, htables⟩ := Machine.exists_filled crc32c
    (List.replicate 4 big) (by simp [kL0CompactionTrigger])
    fun w' hw => List.eq_of_mem_replicate hw ▸ fills
  have hputs : ∀ w ∈ m.history, w.type = .kTypeValue := by
    intro w' hw
    rw [hhist] at hw
    rw [List.eq_of_mem_replicate hw]
    exact fills.value
  obtain ⟨s, ok⟩ := (vlogsOwned_of_reachable hreach).writeImpl_isOk crc32c w .zero 1
  obtain ⟨⟨info, hmem⟩, -, hlevels, -, -, hlive'⟩ := Store.writeImpl_fields ok
  have hroom : m.store.mem.memoryUsage ≤ Store.memMaxSize := by
    rw [hrest.mem]
    decide
  have hrun := (rests_of_machine hreach hputs value).write value hroom fits ok
  have hseq : m.store.lastSequence = (m.history ++ [w]).length - 1 := by
    rw [(accounted_of_reachable hreach).length, List.length_append, List.length_singleton,
      Nat.add_sub_cancel]
  refine ⟨_, ⟨.of_run hrun, ?_, hlive'.trans hlive, List.getLast?_concat, info, ?_⟩, by rw [hhist]⟩
  · have hcount := congrArg List.length htables
    simp only [List.length_map, List.length_zipIdx, List.length_replicate] at hcount
    rw [Level0Full, hlevels, hcount]
    exact le_rfl
  · rw [← hseq, hmem, hrest.mem]

/-- A key whose `put` is all that the memtable holds is found. -/
theorem found_of_mem {m : Machine} (reached : Machine.Reachable crc32c (Meets Machine.Fitting) m)
    {w : Write} {info : VLogEntryInfo} (value : w.type = .kTypeValue)
    (last : m.history.getLast? = some w) (live : m.store.lastLivingSequence = 0)
    (mem : m.store.mem = MemTable.new.put (.ofWrite w.key (m.history.length - 1) w.type) info 1) :
    (m.store.getImpl crc32c w.key).1 = .ok w.value := by
  set k := InternalKey.ofWrite w.key (m.history.length - 1) w.type with hk
  have hlen : m.history.length - 1 < m.history.length := by
    have hne : m.history ≠ [] := by
      rintro hnil
      simp [hnil] at last
    have := List.length_pos_iff.mpr hne
    omega
  have hseq : m.store.lastSequence = m.history.length := (accounted_of_reachable reached).length
  have hentries : m.store.mem.entries = [⟨k, info⟩] := by
    rw [mem]
    rfl
  have hheld : m.store.Holds ⟨k, info⟩ := .inl (by simp [hentries])
  have hget : m.store.mem.get (queryKey m.store.lastSequence w.key) = some (.ok info) := by
    rw [MemTable.get_eq_lookup (by simp [hentries, StrictlySorted])
      (fun e he => (seqOrdered_of_reachable reached).below e (.inl he)), hentries]
    simp [lookup, hk, memAnswer, value]
  have hdurable : Durable crc32c m :=
    durable_of_reachable (fun m a ha => (fitting_of_meets ha).sized) reached
  have hwrite : m.history[k.seq]? = some w := by
    rw [List.getLast?_eq_getElem?] at last
    simpa [hk] using last
  rw [Store.getImpl, hget]
  exact (hdurable.resolve_value (agree_of_reachable reached) hheld (by simp [hk, value]) hwrite).trans
    (live ▸ expiryCheck_zero k w.value)

/-- **Two threads delete one key.**  Both find the key and wait for level 0, and then both
write. -/
theorem Loaded.two_deletions {m : Machine} {w : Write} (h : Loaded crc32c m w)
    (value : w.type = .kTypeValue) (short : w.key.length < 100) :
    ∃ sys, Reachable crc32c Machine.Fitting sys ∧ sys.machine.history
      = m.history ++ [⟨w.key, .kTypeDeletion, []⟩, ⟨w.key, .kTypeDeletion, []⟩] := by
  set d : Write := ⟨w.key, .kTypeDeletion, []⟩ with hd
  have hfits : d.Fits := by
    simp only [hd, Write.Fits, List.length_nil, maxReadBytes]
    omega
  obtain ⟨info, hmem⟩ := h.mem
  -- Both look the key up and fall asleep.
  obtain ⟨handles₁, r₁⟩ := h.reached.sleeps (t := 1) rfl
    (found_of_mem (invariant_of_reachable h.reached).reached value h.last h.live hmem) h.level0
  obtain ⟨handles₂, r₂⟩ := r₁.sleeps (t := 2) (by simp)
    (found_of_mem (invariant_of_reachable r₁).reached value h.last h.live hmem) h.level0
  -- Both wake up and write.
  obtain ⟨s₃, ok₃⟩ := (vlogsOwned_of_reachable (invariant_of_reachable r₂).reached).writeImpl_isOk
    crc32c d .zero 1
  obtain ⟨⟨info₃, hmem₃⟩, -⟩ := Store.writeImpl_fields ok₃
  have hroom₂ : m.store.mem.memoryUsage ≤ Store.memMaxSize := by
    simp only [hmem, MemTable.memoryUsage, MemTable.put, MemTable.new, MemTable.nodeSize,
      MemTable.maxLevel, InternalKey.ofWrite_userKey, Store.memMaxSize]
    omega
  have hroom₃ : s₃.mem.memoryUsage ≤ Store.memMaxSize := by
    simp only [hmem₃, hmem, MemTable.memoryUsage, MemTable.put, MemTable.new, MemTable.nodeSize,
      MemTable.maxLevel, InternalKey.ofWrite_userKey, Store.memMaxSize, hd]
    omega
  have r₃ := r₂.wakes (t := 1) (w := d) (by simp [Function.update_of_ne, hd]) hroom₂ hfits ok₃
  obtain ⟨s₄, ok₄⟩ := (vlogsOwned_of_reachable (invariant_of_reachable r₃).reached).writeImpl_isOk
    crc32c d .zero 1
  have r₄ := r₃.wakes (t := 2) (w := d) (by simp [Function.update_of_ne, hd]) hroom₃ hfits ok₄
  exact ⟨_, r₄, by simp⟩

/-- A deletion behind a deletion of the same key. -/
theorem not_deletionsFollowPuts (history : List Write) {d : Write} (type : d.type = .kTypeDeletion) :
    ¬ DeletionsFollowPuts (history ++ [d, d]) := by
  intro h
  have hsplit : history ++ [d, d] = (history ++ [d]) ++ [d] := by simp
  rw [hsplit] at h
  obtain ⟨w, n, hlast, hvalue⟩ := h (history ++ [d]).length d (by simp) type
  rw [List.take_left, lastWrite_concat, if_pos rfl] at hlast
  obtain rfl : d = w := (Prod.mk.inj (Option.some.inj hlast)).1
  exact absurd (type.symm.trans hvalue) (by decide)

/-- **Two deletions behind one `put`.**  Level 0 is full; two threads look the key up, sleep
in `Prepare`, and both deletions are acknowledged. -/
theorem two_deletions_of_one_put :
    ∃ sys, Reachable crc32cCastagnoli Machine.Fitting sys ∧
      sys.machine.history = List.replicate 4 (⟨List.replicate 24544 0, .kTypeValue, [9]⟩ : Write)
        ++ [⟨[1], .kTypeValue, [9]⟩] ++ [⟨[1], .kTypeDeletion, []⟩, ⟨[1], .kTypeDeletion, []⟩] ∧
      ¬ DeletionsFollowPuts sys.machine.history := by
  obtain ⟨m, h, hhist⟩ := exists_loaded crc32cCastagnoli (Machine.fills_replicate 0)
    (show (⟨[1], .kTypeValue, [9]⟩ : Write).Fits by decide) rfl
  obtain ⟨sys, reached, hist⟩ := h.two_deletions rfl (by simp)
  rw [hhist] at hist
  refine ⟨sys, reached, hist, ?_⟩
  rw [hist]
  exact not_deletionsFollowPuts _ rfl

end System

end Lsmkv
