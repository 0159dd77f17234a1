import Lsmkv.ExpireCalls
import Lsmkv.RangeRead
import Lsmkv.ReadRace

/-!
# Reads beside the other threads

`get` and `scan` (`src/kvstore.cc`) read in parts, and other threads run in between.  `scan` reads
the last sequence number under no lock, the memtables under the lock of the writers, the levels
under the lock of the compactions, and then one value after another under no lock.  `get` holds the
lock of the writers from the start to the end, so that only the background thread, the deletion
tasks and `ExpireAt` go on beside it.

What a read has to fear is that a version moves from a place that it has not read yet to one that
it has read already.  Versions move only from the memtable down (`Store.MemFree.run`), and a read
goes the same way.  So a key that is not written while a `scan` runs is found at its last write
(`scan_beside`), and a `get` answers with the last write of its key (`get_beside`), whatever the
other threads do: as long as the log of the value has not been deleted before it is read
(`Lsmkv.ReadRace`), and if it is not the immutable memtable that has to answer
(`Lsmkv.PointRead`).
-/

namespace Lsmkv

open ByteCode Files

variable {crc32c : Bytes → ℕ}

/-! ## The parts of a read -/

namespace Store

/-- What `scan` collects from the memtables. -/
def collectMem (s : Store) (seq : ℕ) (k1 k2 : Bytes) : KeyMap :=
  let K1 := queryKey seq k1
  let K2 := queryKey seq k2
  let keyMap := KeyMap.scan seq ∅ (s.mem.range K1 K2)
  match s.imm with
  | none => keyMap
  | some imm => keyMap.scan seq (imm.range K1 K2)

/-- The first half of `scan` in its parts: the last sequence number, the memtables, the levels. -/
def collectAcross (atStart atMem atLevels : Store) (k1 k2 : Bytes) : Outcome KeyMap :=
  let seq := atStart.lastSequence
  scanLevels atLevels.sstFiles seq k1 k2 atLevels.levels (atMem.collectMem seq k1 k2)

/-- Where nothing happens in between, that is the first half of `scan`. -/
theorem collectAcross_self (s : Store) (k1 k2 : Bytes) :
    collectAcross s s s k1 k2 = s.collect k1 k2 := rfl

variable (crc32c) in
/-- `GetImpl` in its parts: the memtable, the immutable memtable, `kc->empty()`, the levels, and the
value log. -/
def getAcross (atMem atImm atEmpty atLevels atRead : Store) (key : Bytes) : Outcome Bytes :=
  let query := queryKey atMem.lastSequence key
  match atMem.mem.get query with
  | some found => (atRead.resolve crc32c found).1
  | none =>
      match atImm.imm.bind fun imm => imm.get query with
      | some found => found >>= fun _ => .ok []
      | none =>
          if atEmpty.levels.isEmpty then .fail .kNotFound
          else (atRead.resolve crc32c (getLevels atLevels.sstFiles query atLevels.levels)).1

/-- Where nothing happens in between, that is `GetImpl`. -/
theorem getAcross_self (s : Store) (key : Bytes) :
    getAcross crc32c s s s s s key = (s.getImpl crc32c key).1 := by
  rw [getAcross, getImpl]
  cases s.mem.get (queryKey s.lastSequence key) with
  | some found => rfl
  | none =>
      cases s.imm.bind fun imm => imm.get (queryKey s.lastSequence key) with
      | some found => rfl
      | none =>
          dsimp only
          split
          · rfl
          · rfl

/-- The first version of a key in the memtables. -/
def memHit (s : Store) (u : Bytes) : Option (Entry VLogEntryInfo) :=
  (lookup s.mem.entries u).or (s.imm.bind fun imm => lookup imm.entries u)

/-- The first version of a key in the levels. -/
def levelHit (s : Store) (u : Bytes) : Option (Entry VLogEntryInfo) :=
  firstInTables ((levelAt s.levels 0).reverse ++ (s.levels.drop 1).flatten) u

theorem firstHit_eq_or (s : Store) (u : Bytes) : s.firstHit u = (s.memHit u).or (s.levelHit u) := by
  rw [firstHit_eq, memHit, levelHit, Option.or_assoc]

/-- The memtables have no version of the key. -/
def MemFree (s : Store) (u : Bytes) : Prop := s.memHit u = none

variable {s s' : Store} {u : Bytes}

theorem memFree_iff : s.MemFree u ↔ (∀ e ∈ s.mem.entries, e.key.userKey ≠ u) ∧
    ∀ imm, s.imm = some imm → ∀ e ∈ imm.entries, e.key.userKey ≠ u := by
  rw [MemFree, memHit, Option.or_eq_none_iff, lookup_eq_none, Option.bind_eq_none_iff]
  simp only [lookup_eq_none]

theorem MemFree.of_eq (h : s.MemFree u) (mem : s'.mem = s.mem) (imm : s'.imm = s.imm) :
    s'.MemFree u := by
  rwa [MemFree, memHit, mem, imm]

end Store

/-! ## Keys that are not written -/

/-- **The last write of a key stays the last one exactly as long as the key is not written.** -/
theorem lastWrite_append_eq_iff {history more : List Write} {u : Bytes} :
    lastWrite (history ++ more) u = lastWrite history u ↔ ∀ w ∈ more, w.key ≠ u := by
  constructor
  · intro hsame w hw hu
    obtain ⟨k, hk⟩ := List.mem_iff_getElem?.mp hw
    have hat : (history ++ more)[history.length + k]? = some w := by
      rw [List.getElem?_append_right (Nat.le_add_right _ _), Nat.add_sub_cancel_left, hk]
    cases hlast : lastWrite (history ++ more) u with
    | none => exact lastWrite_eq_none.mp hlast _ w hat hu
    | some p =>
        obtain ⟨w', n⟩ := p
        have hle := (lastWrite_eq_some.mp hlast).2.2 _ w hat hu
        obtain ⟨hn, -⟩ := lastWrite_eq_some.mp (hsame.symm.trans hlast)
        have hlt := (List.getElem?_eq_some_iff.mp hn).1
        omega
  · intro hquiet
    have hold : ∀ (n : ℕ) (w : Write), (history ++ more)[n]? = some w → w.key = u →
        history[n]? = some w := by
      intro n w hn hu
      by_cases hlt : n < history.length
      · rwa [List.getElem?_append_left hlt] at hn
      · rw [List.getElem?_append_right (not_lt.mp hlt)] at hn
        exact absurd hu (hquiet w (List.mem_of_getElem? hn))
    cases hlast : lastWrite history u with
    | none =>
        refine lastWrite_eq_none.mpr fun n w hn hu => ?_
        exact lastWrite_eq_none.mp hlast n w (hold n w hn hu) hu
    | some p =>
        obtain ⟨w, n⟩ := p
        obtain ⟨hn, hu, hmax⟩ := lastWrite_eq_some.mp hlast
        have hlt := (List.getElem?_eq_some_iff.mp hn).1
        refine lastWrite_eq_some.mpr ⟨?_, hu, fun n' w' hn' hu' => hmax n' w' (hold n' w' hn' hu') hu'⟩
        rw [List.getElem?_append_left hlt, hn]

/-- **A key that is not written does not come back into the memtables.** -/
theorem Store.MemFree.step {m m' : Machine} {a : Action} {u : Bytes} (h : m.store.MemFree u)
    (taken : Machine.Step crc32c m a m')
    (unwritten : lastWrite m'.history u = lastWrite m.history u) : m'.store.MemFree u := by
  have hquiet : a.Quiet → m'.store.MemFree u := fun hq =>
    h.of_eq (taken.quiet hq).1.mem (taken.quiet hq).1.imm
  obtain ⟨hmem, himm⟩ := Store.memFree_iff.mp h
  cases taken with
  | @write w garbage height s ok =>
      have hw : w.key ≠ u := lastWrite_append_eq_iff.mp unwritten w (List.mem_singleton_self w)
      obtain ⟨⟨value, hput⟩, himm', -⟩ := Store.writeImpl_fields ok
      refine Store.memFree_iff.mpr ⟨fun e he => ?_, by simpa only [himm'] using himm⟩
      simp only [hput] at he
      rcases mem_insertEntry.mp he with rfl | he
      · simpa using hw
      · exact hmem e he
  | handOver ok =>
      rw [(Store.handOver_cases ok).2]
      refine Store.memFree_iff.mpr ⟨by simp [MemTable.new], fun imm heq => ?_⟩
      obtain rfl := Option.some.inj heq
      exact hmem
  | flush idle full ok =>
      obtain ⟨e₀, es, -, rfl⟩ := Store.writeLevel0Table_cases ok
      exact h.of_eq rfl rfl
  | clearImm done =>
      refine Store.memFree_iff.mpr ⟨hmem, ?_⟩
      simp [Store.clearImm]
  | compact idle ok =>
      simp only [Store.compactLevel] at ok
      split at ok
      · rw [← Outcome.ok.inj ok]
        exact h
      · obtain ⟨r, -, hok⟩ := Outcome.bind_eq_ok.mp ok
        rw [← Outcome.ok.inj hok]
        exact h.of_eq rfl rfl
  | read | flushFail | compactFail | expireAt | runTask => exact hquiet trivial

/-- What is not written from the first history to the last one is not written in between. -/
theorem lastWrite_between {first mid last : List Write} {u : Bytes} (before : first <+: mid)
    (behind : mid <+: last) (unwritten : lastWrite last u = lastWrite first u) :
    lastWrite mid u = lastWrite first u ∧ lastWrite last u = lastWrite mid u := by
  obtain ⟨more, rfl⟩ := before
  obtain ⟨more', rfl⟩ := behind
  rw [List.append_assoc] at unwritten
  have hmid : lastWrite (first ++ more) u = lastWrite first u :=
    lastWrite_append_eq_iff.mpr fun w hw =>
      lastWrite_append_eq_iff.mp unwritten w (List.mem_append_left more' hw)
  refine ⟨hmid, ?_⟩
  rw [List.append_assoc, unwritten, hmid]

/-- The same, over a run. -/
theorem Store.MemFree.run {cond : Machine → Action → Prop} {m m' : Machine} {u : Bytes}
    (h : m.store.MemFree u) (run : Machine.Run crc32c cond m m')
    (unwritten : lastWrite m'.history u = lastWrite m.history u) : m'.store.MemFree u := by
  induction run with
  | refl => exact h
  | tail before taken ih =>
      obtain ⟨a, -, taken⟩ := taken
      obtain ⟨hmid, hlast⟩ := lastWrite_between (Machine.Run.history before) taken.history unwritten
      exact (ih hmid).step taken hlast

/-! ## Locations over a run -/

/-- **A location that leads to a record leads to it as long as the log is there.** -/
theorem Machine.Run.resolves {cond cond' : Machine → Action → Prop} {m m' : Machine}
    (run : Machine.Run crc32c cond m m') (reached : Machine.Reachable crc32c cond' m)
    {info : VLogEntryInfo} {key : InternalKey} {value : Bytes}
    (resolves : Resolves crc32c m.store.vlogs info key value)
    (log : m'.store.vlogs.inode info.fileNo ≠ none) :
    Resolves crc32c m'.store.vlogs info key value := by
  have hreached : Machine.Reachable crc32c (fun _ _ => True) m := reached.mono fun _ _ _ => trivial
  have hused : info.fileNo < m.store.lastVlogFileNo := by
    by_contra hge
    obtain ⟨i, -, hi, -⟩ := resolves.record
    rw [(vlogsOwned_of_reachable hreached).fresh _ (not_lt.mp hge)] at hi
    exact Option.some_ne_none i hi.symm
  suffices hall : m.store.lastVlogFileNo ≤ m'.store.lastVlogFileNo ∧
      (m'.store.vlogs.inode info.fileNo ≠ none → Resolves crc32c m'.store.vlogs info key value) from
    hall.2 log
  clear log
  induction run with
  | refl => exact ⟨le_rfl, fun _ => resolves⟩
  | @tail m₁ m₂ before taken ih =>
      obtain ⟨a, -, taken⟩ := taken
      have hreached₁ := hreached.run (Machine.Run.mono (fun _ _ _ => trivial) before)
      have howned := vlogsOwned_of_reachable hreached₁
      have hordered := seqOrdered_of_reachable hreached₁
      obtain ⟨hle, hres⟩ := ih
      refine ⟨hle.trans (taken.names howned hordered).1, fun hlog => ?_⟩
      rcases taken.log howned hordered (hused.trans_le hle) with ⟨-, hgone⟩ | ⟨-, hsame, hgrows⟩
      · exact absurd hgone hlog
      · exact (hres (hsame ▸ hlog)).mono hgrows

/-- What a read of such a location returns. -/
theorem readValue_of_resolves {cond : Machine → Action → Prop} {m : Machine}
    (reached : Machine.Reachable crc32c cond m) {info : VLogEntryInfo} {key : InternalKey}
    {value : Bytes} (resolves : Resolves crc32c m.store.vlogs info key value)
    (tag : key.tag < 2 ^ 64) :
    (m.store.readValue crc32c info).1
      = if key.seq < m.store.lastLivingSequence then .fail .kExpired else .ok value := by
  rw [Store.readValue_eq]
  exact (readCached_of_resolves (agree_of_reachable reached).same resolves _).trans
    (expiryCheck_eq tag _ _)

/-! ## What is found in parts -/

/-- The first version of a key, looked for in the memtables and then in the levels. -/
def Store.hitAcross (atMem atLevels : Store) (u : Bytes) : Option (Entry VLogEntryInfo) :=
  (atMem.memHit u).or (atLevels.levelHit u)

/-- **A key that is not written meanwhile is found where it is found at one moment**: at that of
the memtables, or at that of the levels. -/
theorem hitAcross_cases {cond : Machine → Action → Prop} {m m' : Machine} {u : Bytes}
    (run : Machine.Run crc32c cond m m')
    (unwritten : lastWrite m'.history u = lastWrite m.history u) :
    Store.hitAcross m.store m'.store u = m.store.firstHit u ∨
      Store.hitAcross m.store m'.store u = m'.store.firstHit u := by
  cases hmem : m.store.memHit u with
  | some e =>
      refine .inl ?_
      rw [Store.hitAcross, Store.firstHit_eq_or, hmem, Option.some_or, Option.some_or]
  | none =>
      have hfree : m'.store.memHit u = none := Store.MemFree.run hmem run unwritten
      refine .inr ?_
      rw [Store.hitAcross, Store.firstHit_eq_or, hmem, hfree]

/-- Where all versions of a key are older than `q`, its newest one is visible. -/
theorem visible_eq_lookup_of_key {es : List (Entry VLogEntryInfo)} {q : ℕ} {u : Bytes}
    (newer : ∀ e ∈ es, e.key.userKey = u → e.key.seq < q) : visible es q u = lookup es u := by
  refine List.find?_congr fun e he => decide_eq_decide.mpr ?_
  exact ⟨And.left, fun hu => ⟨hu, (newer e he hu).le⟩⟩

/-- What is collected from the memtables. -/
theorem Store.collectMem_getElem? (s : Store) (seq : ℕ) (k1 k2 u : Bytes) :
    (s.collectMem seq k1 k2)[u]?
      = (visible (s.mem.range (queryKey seq k1) (queryKey seq k2)) seq u).or
          (s.imm.bind fun imm => visible (imm.range (queryKey seq k1) (queryKey seq k2)) seq u) := by
  rw [Store.collectMem]
  cases s.imm with
  | none =>
      rw [KeyMap.getElem?_scan, Std.TreeMap.getElem?_emptyc, Option.none_or, Option.bind_none,
        Option.or_none]
  | some imm =>
      rw [KeyMap.getElem?_scan, KeyMap.getElem?_scan, Std.TreeMap.getElem?_emptyc, Option.none_or,
        Option.bind_some]

/-- What is collected from the levels. -/
theorem scanLevels_getElem? {sstFiles : ℕ → Bool} {seq : ℕ} {k1 k2 : Bytes}
    {levels : List (Level VLogEntryInfo)} {keyMap keyMap' : KeyMap}
    (scanned : scanLevels sstFiles seq k1 k2 levels keyMap = .ok keyMap') (u : Bytes) :
    keyMap'[u]? = keyMap[u]?.or (((levelAt levels 0).reverse ++ (levels.drop 1).flatten).findSome?
      fun f => visible (f.range sstFiles k1 k2) seq u) := by
  cases levels with
  | nil => simp [scanLevels] at scanned
  | cons level0 levels =>
      obtain rfl := Outcome.ok.inj scanned
      have hall : (level0.reverse ++ levels.flatten).foldl
          (fun keyMap f => keyMap.scan seq (f.range sstFiles k1 k2)) keyMap
          = KeyMap.scanAll seq keyMap ((level0.reverse ++ levels.flatten).map
              fun f => f.range sstFiles k1 k2) := List.foldl_map.symm
      rw [hall, KeyMap.getElem?_scanAll, visible, List.find?_flatten, List.findSome?_map]
      rfl

section Parts

variable {m m' : Machine} {k1 k2 u : Bytes} {q : ℕ} {keyMap : KeyMap}

/-- The memtables yield their newest version of a key that is older than the query. -/
theorem Intact.collectMem_eq_memHit (h : Intact crc32c m) (le : k1 ≤ u) (le' : u ≤ k2)
    (older : ∀ e, m.store.Holds e → e.key.userKey = u → e.key.seq < q) :
    (m.store.collectMem q k1 k2)[u]? = m.store.memHit u := by
  have htable : ∀ t : MemTable, StrictlySorted t.entries → (∀ e ∈ t.entries, m.store.Holds e) →
      visible (t.range (queryKey q k1) (queryKey q k2)) q u = lookup t.entries u := by
    intro t hsorted hheld
    have holder : ∀ e ∈ t.entries, e.key.userKey = u → e.key.seq < q :=
      fun e he => older e (hheld e he)
    have hnovalue : ∀ e ∈ t.entries, e.key.userKey = u → NoValueAt q [e] := by
      intro e he hu d hd hseq
      rw [List.mem_singleton.mp hd] at hseq
      exact absurd hseq (holder e he hu).ne
    rw [MemTable.visible_range_of_key hsorted (h.tagsWritten hheld) hnovalue le le',
      visible_eq_lookup_of_key holder]
  rw [Store.collectMem_getElem?, Store.memHit, htable _ h.versions.mem fun e he => .inl he]
  congr 1
  refine Option.bind_congr fun imm himm => ?_
  exact htable imm (h.versions.imm imm himm) fun e he => .inr (.inl ⟨imm, himm, he⟩)

/-- The levels yield their newest version of such a key. -/
theorem Intact.scanLevels_eq_levelHit (h : Intact crc32c m)
    (seeks : ∀ i, ∀ f ∈ levelAt m.store.levels i, f.Seeks k1 k2) (le : k1 ≤ u) (le' : u ≤ k2)
    (older : ∀ e, m.store.Holds e → e.key.userKey = u → e.key.seq < q) {keyMap' : KeyMap}
    (scanned : scanLevels m.store.sstFiles q k1 k2 m.store.levels keyMap = .ok keyMap') :
    keyMap'[u]? = keyMap[u]?.or (m.store.levelHit u) := by
  rw [scanLevels_getElem? scanned, Store.levelHit, firstInTables]
  congr 1
  refine findSome?_congr_mem fun f hf => ?_
  obtain ⟨i, hi⟩ := mem_tables.mp hf
  obtain ⟨hpresent, hsorted, hcovers, -⟩ := h.searchable hi
  rw [visible_eq_lookup_of_key fun e he => older e
      (.inr (.inr ⟨i, f, hi, SSTFile.range_subset _ _ _ _ he⟩)),
    SSTFile.lookup_range hpresent hsorted hcovers (seeks i f hi) le le']

end Parts

/-! ## `scan` -/

section Scan

variable {m₀ m m' : Machine} {u : Bytes} {e : Entry VLogEntryInfo} {w : Write} {n : ℕ}

/-- The versions of a key that is not written since are older than the writes since. -/
theorem Accounted.seq_lt (h : Accounted m) (start : Accounted m₀)
    (unwritten : lastWrite m.history u = lastWrite m₀.history u) (held : m.store.Holds e)
    (user : e.key.userKey = u) : e.key.seq < m₀.store.lastSequence := by
  obtain ⟨w, hw, hkey⟩ := h.sound e held
  have hu : w.key = u := by rw [← user, hkey, InternalKey.ofWrite_userKey]
  cases hlast : lastWrite m.history u with
  | none => exact absurd hu (lastWrite_eq_none.mp hlast _ w hw)
  | some p =>
      obtain ⟨w', n⟩ := p
      have hle := (lastWrite_eq_some.mp hlast).2.2 _ w hw hu
      obtain ⟨hn, -⟩ := lastWrite_eq_some.mp (unwritten.symm.trans hlast)
      have hlt := (List.getElem?_eq_some_iff.mp hn).1
      rw [start.length]
      omega

/-- **What a version that is found first is read as later**: the value of the last write of its
key, unless that has expired by then. -/
theorem Intact.firstHit_read (h : Intact crc32c m) {cond cond' : Machine → Action → Prop}
    (reached : Machine.Reachable crc32c cond' m) (run : Machine.Run crc32c cond m m')
    (last : lastWrite m.history u = some (w, n)) (hit : m.store.firstHit u = some e)
    (type : e.key.type = .kTypeValue) (log : m'.store.vlogs.inode e.value.fileNo ≠ none) :
    (m'.store.readValue crc32c e.value).1
      = if n < m'.store.lastLivingSequence then .fail .kExpired else .ok w.value := by
  obtain ⟨held, user⟩ := Store.holds_of_firstHit hit
  obtain ⟨w', hw', hresolves⟩ := h.durable.resolves e held type
  obtain ⟨w'', hw'', hkey⟩ := h.account.sound e held
  obtain rfl : w'' = w' := Option.some.inj (hw''.symm.trans hw')
  have hreached : Machine.Reachable crc32c (fun _ _ => True) m := reached.mono fun _ _ _ => trivial
  have hreached' := hreached.run (Machine.Run.mono (fun _ _ _ => trivial) run)
  have htag : e.key.tag < 2 ^ 64 := by
    have hlt := h.versions.below e held
    have hsmall := h.versions.small
    simp only [InternalKey.seq, kMaxSequenceNumber] at hlt hsmall
    omega
  rw [readValue_of_resolves hreached' (run.resolves reached hresolves log) htag]
  obtain ⟨hn, -, hmax⟩ := lastWrite_eq_some.mp last
  have hle : e.key.seq ≤ n :=
    hmax _ w'' hw' (by rw [← user, hkey, InternalKey.ofWrite_userKey])
  by_cases alive : m.store.lastLivingSequence ≤ n
  · obtain ⟨e', hit', hkey'⟩ := h.firstHit_of_lastWrite last alive
    obtain rfl : e' = e := Option.some.inj (hit'.symm.trans hit)
    have hseq : e'.key.seq = n := by rw [hkey', InternalKey.seq_ofWrite]
    obtain rfl : w'' = w := by
      rw [hseq] at hw'
      exact Option.some.inj (hw'.symm.trans hn)
    rw [hseq]
  · have hlive := run.live_le
    rw [if_pos (by omega), if_pos (by omega)]

/-- Where a key is found as it is at one moment, it is found at its last write of that moment. -/
theorem Intact.found_at {cond : Machine → Action → Prop} {m m₂ : Machine} {u : Bytes}
    {found : Option (Entry VLogEntryInfo)} (h : Intact crc32c m)
    (reached : Machine.Reachable crc32c cond m) (run : Machine.Run crc32c cond m m₂)
    (hit : found = m.store.firstHit u) :
    (lastWrite m.history u = none → found = none) ∧
      ∀ w n, lastWrite m.history u = some (w, n) →
        (m₂.store.lastLivingSequence ≤ n → ∃ e, found = some e ∧ e.key = .ofWrite u n w.type) ∧
        ∀ e, found = some e → e.key.type = .kTypeValue → ∀ m₃, Machine.Run crc32c cond m₂ m₃ →
          m₃.store.vlogs.inode e.value.fileNo ≠ none →
          (m₃.store.readValue crc32c e.value).1
            = if n < m₃.store.lastLivingSequence then .fail .kExpired else .ok w.value := by
  subst hit
  refine ⟨h.firstHit_eq_none, fun w n hw => ⟨fun alive => ?_, fun e he type m₃ later log => ?_⟩⟩
  · exact h.firstHit_of_lastWrite hw (run.live_le.trans alive)
  · exact h.firstHit_read reached (run.trans later) hw he type log

/-- **A scan beside other threads.**  While writers write other keys, memtables are handed over and
flushed, tables are compacted and versions expire, a scan finds of every key in its range that is
not written meanwhile the last write: nothing if there is none, the last write if it does not
expire meanwhile, and what it finds is read later as the value of the last write, or as expired,
unless the log was deleted before. -/
theorem scan_beside {cond : Machine → Action → Prop} (orderly : ∀ m a, cond m a → m.Orderly a)
    {m₀ m₁ m₂ : Machine} (reached : Machine.Reachable crc32c cond m₀)
    (before : Machine.Run crc32c cond m₀ m₁) (between : Machine.Run crc32c cond m₁ m₂)
    {k1 k2 u : Bytes} {keyMap : KeyMap}
    (seeks : ∀ i, ∀ f ∈ levelAt m₂.store.levels i, f.Seeks k1 k2)
    (collected : Store.collectAcross m₀.store m₁.store m₂.store k1 k2 = .ok keyMap)
    (le : k1 ≤ u) (le' : u ≤ k2)
    (unwritten : lastWrite m₂.history u = lastWrite m₀.history u) :
    (lastWrite m₀.history u = none → keyMap[u]? = none) ∧
      ∀ w n, lastWrite m₀.history u = some (w, n) →
        (m₂.store.lastLivingSequence ≤ n →
          ∃ e, keyMap[u]? = some e ∧ e.key = .ofWrite u n w.type) ∧
        ∀ e, keyMap[u]? = some e → e.key.type = .kTypeValue → ∀ m₃, Machine.Run crc32c cond m₂ m₃ →
          m₃.store.vlogs.inode e.value.fileNo ≠ none →
          (m₃.store.readValue crc32c e.value).1
            = if n < m₃.store.lastLivingSequence then .fail .kExpired else .ok w.value := by
  have hreached₁ := reached.run before
  have hreached₂ := hreached₁.run between
  have h₁ : Intact crc32c m₁ := intact_of_reachable orderly hreached₁
  have h₂ : Intact crc32c m₂ := intact_of_reachable orderly hreached₂
  have hstart := accounted_of_reachable reached
  obtain ⟨hmid, hlast⟩ := lastWrite_between before.history between.history unwritten
  have hfound : keyMap[u]? = Store.hitAcross m₁.store m₂.store u := by
    rw [h₂.scanLevels_eq_levelHit seeks le le'
        (fun e held user => h₂.account.seq_lt hstart unwritten held user) collected,
      h₁.collectMem_eq_memHit le le'
        fun e held user => h₁.account.seq_lt hstart hmid held user,
      Store.hitAcross]
  rcases hitAcross_cases between hlast with hit | hit
  · exact hmid ▸ h₁.found_at hreached₁ between (hfound.trans hit)
  · exact unwritten ▸ h₂.found_at hreached₂ .refl (hfound.trans hit)

/-- A flushed value, and the write of another key after the scan has started. -/
theorem scan_beside_write : ∃ (m₀ m₁ : Machine) (keyMap : KeyMap) (u : Bytes),
    Machine.Run crc32cCastagnoli Machine.Unexpired m₀ m₁ ∧
      m₀.history = [⟨u, .kTypeValue, [9]⟩] ∧
      m₁.history = [⟨u, .kTypeValue, [9]⟩, ⟨[1], .kTypeValue, [7]⟩] ∧
      Store.collectAcross m₀.store m₁.store m₁.store u u = .ok keyMap ∧
      ∃ e, keyMap[u]? = some e ∧ e.key = .ofWrite u 0 .kTypeValue := by
  have hfills : Machine.Fills ⟨List.replicate 24544 0, .kTypeValue, [9]⟩ := Machine.fills_replicate 0
  have hlen : (List.replicate 24544 (0 : Byte)).length ≠ 1 := by rw [List.length_replicate]; decide
  generalize List.replicate 24544 (0 : Byte) = u at hfills hlen
  have hne : ([1] : Bytes) ≠ u := fun heq => hlen (heq ▸ rfl)
  obtain ⟨m, d, _, hflush, -, hhist, hseq, hlive, -, -, hkey, htables⟩ :=
    Machine.exists_one_table crc32cCastagnoli hfills
  have hreach := hflush.unexpired (by simp [hhist])
  obtain ⟨s, hs⟩ := (vlogsOwned_of_reachable hreach).writeImpl_isOk crc32cCastagnoli
    ⟨[1], .kTypeValue, [7]⟩ .zero 1
  obtain ⟨-, -, hlevels, -, -, hlive'⟩ := Store.writeImpl_fields hs
  have hrun : Machine.Run crc32cCastagnoli Machine.Unexpired m
      ⟨s, m.flushed, m.history ++ [⟨[1], .kTypeValue, [7]⟩]⟩ := by
    refine .tail .refl ⟨.write _ .zero 1, ⟨⟨?_, trivial, by simp only [Machine.Fitting]; decide⟩, by simp⟩,
      .write hs⟩
    simp [Machine.Ordering, hseq, kMaxSequenceNumber]
  obtain ⟨keyMap, hcollected⟩ : ∃ keyMap, Store.collectAcross m.store s s u u = .ok keyMap := by
    have hlevels_ne : s.levels ≠ [] := hlevels ▸ levels_ne_of_reachable hreach
    obtain ⟨level0, levels, hcons⟩ := List.exists_cons_of_ne_nil hlevels_ne
    exact ⟨_, by rw [Store.collectAcross, hcons]; rfl⟩
  refine ⟨m, _, keyMap, u, hrun, hhist, by rw [hhist]; rfl, hcollected, ?_⟩
  have hlast : lastWrite m.history u = some (⟨u, .kTypeValue, [9]⟩, 0) := by simp [hhist, lastWrite]
  have hscan := scan_beside (fun _ _ hm => hm.1) hreach hrun .refl (fun i f hf => by
    obtain ⟨hentries, hlargest⟩ := htables i f (hlevels ▸ hf)
    have hseeks := SSTFile.seeks_singleton hentries hlargest
    rwa [hkey] at hseeks) hcollected le_rfl le_rfl
    (lastWrite_append_eq_iff.mpr fun w hw => by rw [List.mem_singleton.mp hw]; exact hne)
  exact (hscan.2 _ 0 hlast).1 (by rw [hlive', hlive])

end Scan

/-! ## `get` -/

/-- The steps that need no lock of the writers. -/
def Action.Unlocked : Action → Prop
  | .write .. | .handOver => False
  | _ => True

/-- **What happens beside a `get`**: nothing is written. -/
structure Machine.Beside (m m' : Machine) : Prop where
  mem : m'.store.mem = m.store.mem
  history : m'.history = m.history

theorem Machine.Step.beside {m m' : Machine} {a : Action} (taken : Machine.Step crc32c m a m')
    (unlocked : a.Unlocked) : m.Beside m' := by
  have hquiet : a.Quiet → m.Beside m' := fun hq =>
    ⟨(taken.quiet hq).1.mem, (taken.quiet hq).2.2.1⟩
  cases taken with
  | write ok | handOver ok => exact absurd unlocked id
  | flush idle full ok =>
      obtain ⟨e₀, es, -, rfl⟩ := Store.writeLevel0Table_cases ok
      exact ⟨rfl, rfl⟩
  | clearImm done => exact ⟨rfl, rfl⟩
  | compact idle ok =>
      simp only [Store.compactLevel] at ok
      split at ok
      · rw [← Outcome.ok.inj ok]
        exact ⟨rfl, rfl⟩
      · obtain ⟨r, hr, hok⟩ := Outcome.bind_eq_ok.mp ok
        rw [← Outcome.ok.inj hok]
        exact ⟨rfl, rfl⟩
  | read | flushFail | compactFail | expireAt | runTask => exact hquiet trivial

/-- The same, over a run. -/
theorem Machine.Run.beside {cond : Machine → Action → Prop} {m m' : Machine}
    (run : Machine.Run crc32c (fun m a => cond m a ∧ a.Unlocked) m m') : m.Beside m' := by
  induction run with
  | refl => exact ⟨rfl, rfl⟩
  | tail _ taken ih =>
      obtain ⟨a, meets, taken⟩ := taken
      have hstep := taken.beside meets.2
      exact ⟨hstep.mem.trans ih.mem, hstep.history.trans ih.history⟩

section Get

variable {cond : Machine → Action → Prop} {m m' m₁ m₂ m₃ m₄ m₅ : Machine} {u : Bytes}
  {e : Entry VLogEntryInfo} {w : Write} {n : ℕ}

/-- What `GetImpl` makes later of the location of a value: the value of the last write, if the log is
still there. -/
theorem Intact.firstHit_resolve (h : Intact crc32c m) (reached : Machine.Reachable crc32c cond m)
    (run : Machine.Run crc32c cond m m') (last : lastWrite m.history u = some (w, n))
    (alive : m'.store.lastLivingSequence ≤ n) (hit : m.store.firstHit u = some e)
    (type : e.key.type = .kTypeValue) :
    (m'.store.resolve crc32c (.ok e.value)).1 = .ok w.value ∨
      m'.store.vlogs.inode e.value.fileNo = none := by
  by_cases log : m'.store.vlogs.inode e.value.fileNo = none
  · exact .inr log
  · obtain ⟨w', -, hresolves⟩ := h.durable.resolves e (Store.holds_of_firstHit hit).1 type
    have hlength : e.value.length ≠ 0 := by
      rw [hresolves.length_eq]
      simp [recordLength]
    refine .inl ?_
    rw [Store.resolve, if_neg hlength, h.firstHit_read reached run last hit type log,
      if_neg (not_lt.mpr alive)]

/-- What is found is the last write, if that has not expired. -/
theorem Intact.hit_last (h : Intact crc32c m) (hit : m.store.firstHit u = some e) :
    lastWrite m.history u ≠ none ∧ ∀ w n, lastWrite m.history u = some (w, n) →
      m.store.lastLivingSequence ≤ n → e.key = .ofWrite u n w.type := by
  refine ⟨fun hnone => ?_, fun w n last alive => ?_⟩
  · rw [h.firstHit_eq_none hnone] at hit
    exact Option.some_ne_none e hit.symm
  · obtain ⟨e', hit', hkey⟩ := h.firstHit_of_lastWrite last alive
    rwa [Option.some.inj (hit.symm.trans hit')]

/-- Where nothing is found, the last write has expired. -/
theorem Intact.miss_last (h : Intact crc32c m) (miss : m.store.firstHit u = none)
    (last : lastWrite m.history u = some (w, n)) : n < m.store.lastLivingSequence := by
  by_contra alive
  obtain ⟨e, hit, -⟩ := h.firstHit_of_lastWrite last (not_lt.mp alive)
  rw [miss] at hit
  exact Option.some_ne_none e hit.symm

theorem memAnswer_some_ne_none (e : Entry VLogEntryInfo) : memAnswer (some e) ≠ none := by
  rw [memAnswer]
  split
  · exact Option.some_ne_none _
  · exact Option.some_ne_none _

/-- The parts of a `get`, with the reads of the memtables and of the levels as lookups. -/
theorem getAcross_eq (h₁ : Intact crc32c m₁) (h₂ : Intact crc32c m₂) (h₄ : Intact crc32c m₄)
    (seq₂ : m₂.store.lastSequence = m₁.store.lastSequence)
    (seq₄ : m₄.store.lastSequence = m₁.store.lastSequence)
    (ne₃ : m₃.store.levels ≠ []) (ne₄ : m₄.store.levels ≠ []) (s : Store) :
    Store.getAcross crc32c m₁.store m₂.store m₃.store m₄.store s u =
      match memAnswer (lookup m₁.store.mem.entries u) with
      | some found => (s.resolve crc32c found).1
      | none =>
          match memAnswer (m₂.store.imm.bind fun imm => lookup imm.entries u) with
          | some found => found >>= fun _ => .ok []
          | none => (s.resolve crc32c (sstAnswer (m₄.store.levelHit u))).1 := by
  have himm := h₂.get_imm (u := u)
  have hget := h₄.get_levels (u := u) ne₄
  rw [seq₂] at himm
  rw [seq₄] at hget
  rw [Store.getAcross, h₁.get_mem, himm]
  simp only [List.isEmpty_iff, ne₃, if_false, hget, Store.levelHit]

/-- **What the parts of a `get` should answer**: `NotFound` for a key that was never written or
whose last write is a deletion, and else the value of the last write, unless that is in the
immutable memtable, which is answered with the empty value, or its log was deleted before the
read. -/
structure GetAnswers (atMem atImm atLevels atRead : Machine) (u : Bytes) (answer : Outcome Bytes) :
    Prop where
  never : lastWrite atMem.history u = none → answer = .fail .kNotFound
  deletion : ∀ w n, lastWrite atMem.history u = some (w, n) →
    atRead.store.lastLivingSequence ≤ n → w.type = .kTypeDeletion → answer = .fail .kNotFound
  value : ∀ w n, lastWrite atMem.history u = some (w, n) →
    atRead.store.lastLivingSequence ≤ n → w.type = .kTypeValue →
    answer = .ok w.value ∨ (atImm.store.ServedByImm u ∧ answer = .ok []) ∨
      ∃ e, e.key = .ofWrite u n w.type ∧ (atMem.store.Holds e ∨ atLevels.store.Holds e) ∧
        atRead.store.vlogs.inode e.value.fileNo = none

/-- A key that is found: the last write made the entry, unless it has expired, so the type of the
entry decides. -/
theorem getAnswers_of_hit (h : Intact crc32c m) (history : m.history = m₁.history)
    (live : m.store.lastLivingSequence ≤ m₅.store.lastLivingSequence)
    (hit : m.store.firstHit u = some e) {answer : Outcome Bytes}
    (deletion : e.key.type ≠ .kTypeValue → answer = .fail .kNotFound)
    (value : ∀ w n, lastWrite m₁.history u = some (w, n) → m₅.store.lastLivingSequence ≤ n →
      e.key = .ofWrite u n w.type → e.key.type = .kTypeValue →
      answer = .ok w.value ∨ (m₂.store.ServedByImm u ∧ answer = .ok []) ∨
        ∃ e, e.key = .ofWrite u n w.type ∧ (m₁.store.Holds e ∨ m₄.store.Holds e) ∧
          m₅.store.vlogs.inode e.value.fileNo = none) :
    GetAnswers m₁ m₂ m₄ m₅ u answer := by
  obtain ⟨hne, hlast⟩ := h.hit_last hit
  rw [history] at hne hlast
  have hkey : ∀ w n, lastWrite m₁.history u = some (w, n) → m₅.store.lastLivingSequence ≤ n →
      e.key = .ofWrite u n w.type := fun w n last alive => hlast w n last (live.trans alive)
  refine ⟨fun hnone => absurd hnone hne, fun w n last alive hdeletion => deletion ?_,
    fun w n last alive hvalue => value w n last alive (hkey w n last alive) ?_⟩
  · simp [hkey w n last alive, hdeletion]
  · rw [hkey w n last alive, InternalKey.type_ofWrite, hvalue]

/-- A key in the memtable. -/
theorem getAnswers_of_mem (h₁ : Intact crc32c m₁) (reached : Machine.Reachable crc32c cond m₁)
    (run : Machine.Run crc32c cond m₁ m₅) (hit : m₁.store.firstHit u = some e)
    {found : Outcome VLogEntryInfo} (answers : memAnswer (some e) = some found) :
    GetAnswers m₁ m₂ m₄ m₅ u (m₅.store.resolve crc32c found).1 := by
  refine getAnswers_of_hit h₁ rfl run.live_le hit (fun htype => ?_)
    fun w n last alive hkey htype => ?_
  · rw [memAnswer, if_neg htype, Option.some.injEq] at answers
    rw [← answers, Store.resolve]
  · rw [memAnswer, if_pos htype, Option.some.injEq] at answers
    rw [← answers]
    refine (h₁.firstHit_resolve reached run last alive hit htype).imp_right fun hgone => .inr ?_
    exact ⟨e, hkey, .inl (Store.holds_of_firstHit hit).1, hgone⟩

/-- A key in the immutable memtable. -/
theorem getAnswers_of_imm (h₂ : Intact crc32c m₂) (history : m₂.history = m₁.history)
    (live : m₂.store.lastLivingSequence ≤ m₅.store.lastLivingSequence)
    (hit : m₂.store.firstHit u = some e) (served : m₂.store.ServedByImm u)
    {found : Outcome VLogEntryInfo} (answers : memAnswer (some e) = some found) :
    GetAnswers m₁ m₂ m₄ m₅ u (found >>= fun _ => .ok []) := by
  refine getAnswers_of_hit h₂ history live hit (fun htype => ?_)
    fun w n last alive hkey htype => .inr (.inl ⟨served, ?_⟩)
  · rw [memAnswer, if_neg htype, Option.some.injEq] at answers
    rw [← answers]
    rfl
  · rw [memAnswer, if_pos htype, Option.some.injEq] at answers
    rw [← answers, Outcome.ok_bind]

/-- A key that is in no place. -/
theorem getAnswers_of_miss (h : Intact crc32c m) (history : m.history = m₁.history)
    (live : m.store.lastLivingSequence ≤ m₅.store.lastLivingSequence)
    (miss : m.store.firstHit u = none) : GetAnswers m₁ m₂ m₄ m₅ u (.fail .kNotFound) := by
  refine ⟨fun _ => rfl, fun _ _ _ _ _ => rfl, fun w n last alive _ => ?_⟩
  have hexpired := h.miss_last miss (history ▸ last)
  omega

/-- A key in the levels. -/
theorem getAnswers_of_levels (h₄ : Intact crc32c m₄) (history : m₄.history = m₁.history)
    (reached : Machine.Reachable crc32c cond m₄) (run : Machine.Run crc32c cond m₄ m₅)
    (hit : m₄.store.firstHit u = some e) :
    GetAnswers m₁ m₂ m₄ m₅ u (m₅.store.resolve crc32c (sstAnswer (some e))).1 := by
  refine getAnswers_of_hit h₄ history run.live_le hit (fun htype => ?_)
    fun w n last alive hkey htype => ?_
  · rw [sstAnswer, if_neg htype]
    rfl
  · rw [sstAnswer, if_pos htype]
    refine (h₄.firstHit_resolve reached run (history ▸ last) alive hit htype).imp_right
      fun hgone => .inr ?_
    exact ⟨e, hkey, .inr (Store.holds_of_firstHit hit).1, hgone⟩

/-- **A `get` beside other threads** answers what it should, while the background thread flushes and
compacts, tables and logs are deleted and versions expire between its parts. -/
theorem get_beside (orderly : ∀ m a, cond m a → m.Orderly a)
    (reached : Machine.Reachable crc32c cond m₁)
    (run₂ : Machine.Run crc32c (fun m a => cond m a ∧ a.Unlocked) m₁ m₂)
    (run₃ : Machine.Run crc32c (fun m a => cond m a ∧ a.Unlocked) m₂ m₃)
    (run₄ : Machine.Run crc32c (fun m a => cond m a ∧ a.Unlocked) m₃ m₄)
    (run₅ : Machine.Run crc32c (fun m a => cond m a ∧ a.Unlocked) m₄ m₅) (u : Bytes) :
    GetAnswers m₁ m₂ m₄ m₅ u
      (Store.getAcross crc32c m₁.store m₂.store m₃.store m₄.store m₅.store u) := by
  have hreached₂ := reached.run (run₂.mono fun _ _ hm => hm.1)
  have hreached₃ := hreached₂.run (run₃.mono fun _ _ hm => hm.1)
  have hreached₄ := hreached₃.run (run₄.mono fun _ _ hm => hm.1)
  have hrun₅ : Machine.Run crc32c cond m₄ m₅ := run₅.mono fun _ _ hm => hm.1
  have hlive₃ := run₄.live_le.trans run₅.live_le
  have h₁ : Intact crc32c m₁ := intact_of_reachable orderly reached
  have h₂ : Intact crc32c m₂ := intact_of_reachable orderly hreached₂
  have h₄ : Intact crc32c m₄ := intact_of_reachable orderly hreached₄
  have hmem₂ := run₂.beside.mem
  have hhist₂ := run₂.beside.history
  have hhist₃ := run₃.beside.history.trans hhist₂
  have hhist₄ := run₄.beside.history.trans hhist₃
  rw [getAcross_eq h₁ h₂ h₄ (by rw [h₂.account.length, h₁.account.length, hhist₂])
    (by rw [h₄.account.length, h₁.account.length, hhist₄]) (levels_ne_of_reachable hreached₃)
    (levels_ne_of_reachable hreached₄)]
  -- The cases are the places where the key is found.
  cases hmem : lookup m₁.store.mem.entries u with
  | some e =>
      have hrun : Machine.Run crc32c cond m₁ m₅ :=
        Machine.Run.mono (fun _ _ hm => hm.1) ((run₂.trans run₃).trans (run₄.trans run₅))
      have hit : m₁.store.firstHit u = some e := by rw [Store.firstHit_eq, hmem, Option.some_or]
      cases hanswer : memAnswer (some e) with
      | some found => exact getAnswers_of_mem h₁ reached hrun hit hanswer
      | none => exact absurd hanswer (memAnswer_some_ne_none e)
  | none =>
      cases himm : m₂.store.imm.bind fun imm => lookup imm.entries u with
      | some e =>
          have hit : m₂.store.firstHit u = some e := by
            rw [Store.firstHit_eq, hmem₂, hmem, himm, Option.none_or, Option.some_or]
          obtain ⟨imm, himm', hfound⟩ := Option.bind_eq_some_iff.mp himm
          have hserved : m₂.store.ServedByImm u :=
            ⟨by rw [hmem₂, hmem], imm, himm', by rw [hfound]; exact Option.some_ne_none e⟩
          cases hanswer : memAnswer (some e) with
          | some found =>
              exact getAnswers_of_imm h₂ hhist₂ (run₃.live_le.trans hlive₃) hit hserved hanswer
          | none => exact absurd hanswer (memAnswer_some_ne_none e)
      | none =>
          have hfree₂ : m₂.store.MemFree u := by
            rw [Store.MemFree, Store.memHit, hmem₂, hmem, himm, Option.none_or]
          have hfree₃ : m₃.store.MemFree u := hfree₂.run run₃ (by rw [run₃.beside.history])
          have hfree₄ : m₄.store.MemFree u := hfree₃.run run₄ (by rw [run₄.beside.history])
          have hit : m₄.store.firstHit u = m₄.store.levelHit u := by
            rw [Store.firstHit_eq_or, hfree₄, Option.none_or]
          simp only [memAnswer]
          cases hlevel : m₄.store.levelHit u with
          | none => exact getAnswers_of_miss h₄ hhist₄ run₅.live_le (hit.trans hlevel)
          | some e => exact getAnswers_of_levels h₄ hhist₄ hreached₄ hrun₅ (hit.trans hlevel)

end Get

/-- A value that is handed over when the memtable is read, and flushed when the immutable memtable
is: the `get` finds it in level 0. -/
theorem get_beside_flush : ∃ (m m' : Machine) (u : Bytes),
    Machine.Run crc32cCastagnoli Machine.Unexpired m m' ∧
      m.history = [⟨u, .kTypeValue, [9]⟩] ∧ m.store.imm ≠ none ∧ m'.store.imm = none ∧
      Store.getAcross crc32cCastagnoli m.store m'.store m'.store m'.store m'.store u = .ok [9] := by
  have hfills : Machine.Fills ⟨List.replicate 24544 0, .kTypeValue, [9]⟩ := Machine.fills_replicate 0
  generalize List.replicate 24544 (0 : Byte) = u at hfills
  have hnew : Machine.Reachable crc32cCastagnoli Machine.Flushing .new := .new
  obtain ⟨s, imm, info, hfill, -, himm, hentries, -⟩ :=
    Machine.Resting.fill crc32cCastagnoli (m := .new) ⟨rfl, rfl, rfl⟩ .init (by decide) hfills
  have hreach := (hnew.run hfill).unexpired (by simp [Machine.new])
  have hnumbered := (seqOrdered_of_reachable hreach).numbered
  obtain ⟨m, hflush, hclear⟩ := Store.flush_steps crc32cCastagnoli
    (Machine.new.history ++ [⟨u, .kTypeValue, [9]⟩]) himm hentries hfills.short hnumbered
  have hrun : Machine.Run crc32cCastagnoli (fun m a => m.Unexpired a ∧ a.Unlocked) _ _ :=
    .tail (.tail .refl ⟨.flush, ⟨⟨⟨trivial, trivial, trivial⟩, by simp⟩, trivial⟩, hflush⟩)
      ⟨.clearImm, ⟨⟨⟨trivial, trivial, trivial⟩, by simp⟩, trivial⟩, hclear⟩
  have hunexpired := hrun.mono fun _ _ hm => hm.1
  have hreach' := hreach.run hunexpired
  refine ⟨_, _, u, hunexpired, rfl, by simp [himm], rfl, ?_⟩
  have hget := get_beside (fun _ _ hm => hm.1) hreach hrun .refl .refl .refl u
  rcases hget.value ⟨u, .kTypeValue, [9]⟩ 0 (by simp [Machine.new, lastWrite]) (by
    rw [Machine.Unexpired.live hreach']) rfl with hread | ⟨hserved, -⟩ | ⟨e, hkey, hheld, hgone⟩
  · exact hread
  · obtain ⟨-, imm', himm', -⟩ := hserved
    exact absurd himm' (Option.some_ne_none imm').symm
  · have htype : e.key.type = .kTypeValue := by rw [hkey, InternalKey.type_ofWrite]
    rcases hheld with hheld | hheld
    · exact absurd hgone (logsPresent_of_reachable hreach e hheld htype)
    · exact absurd hgone (logsPresent_of_reachable hreach' e hheld htype)

end Lsmkv
