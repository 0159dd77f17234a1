import Lsmkv.Ownership
import Lsmkv.VLogRun
import Lsmkv.FirstHit

/-!
# Point reads

`KVStore::GetImpl` asks the memtable, the immutable memtable and the levels for the location
of a key, and then reads the value log.  Here both halves are followed over runs.

The reader of the value log keeps files open by number (`Agree`); numbers are never used
twice, so an open file is the file of its number as long as there is one
(`agree_of_reachable`).  The search of the levels finds the first version of the key in the
order of the sources (`getLevels_eq_firstHit`), when the tables are sorted, lie within the
ranges that are recorded for them, and have their files.

`Merging` is the condition under which compactions keep all of that: everything that a
compaction reads is merged in comparator order, also what has expired, because the ranges of
the new tables are taken from all keys that are visited.
-/

namespace Lsmkv

open ByteCode Files ReadOrder

variable {crc32c : Bytes → ℕ}

/-! ## Open files over a run -/

/-- From one store to a later one the names of value logs below the counter stay or
disappear. -/
def Store.NamesFrom (s s' : Store) : Prop :=
  s.lastVlogFileNo ≤ s'.lastVlogFileNo ∧
    ∀ n < s.lastVlogFileNo, ∀ i, s'.vlogs.inode n = some i → s.vlogs.inode n = some i

theorem Store.NamesFrom.of_eq {s s' : Store} (last : s'.lastVlogFileNo = s.lastVlogFileNo)
    (vlogs : s'.vlogs = s.vlogs) : s.NamesFrom s' := by
  refine ⟨last.ge, fun n _ i hi => ?_⟩
  rwa [vlogs] at hi

theorem Store.VLogsOwned.names_write {s s' : Store} (h : s.VLogsOwned) {w : Write}
    {garbage : VLogEntryInfo} {height : ℕ} (ok : s.writeImpl crc32c w garbage height = .ok s') :
    s.NamesFrom s' := by
  obtain ⟨s₁, info, vlog, vlogs, hs₁, happend, rfl⟩ := Store.writeImpl_cases ok
  obtain ⟨h₁, hnames⟩ : s₁.VLogsOwned ∧ s.NamesFrom s₁ := by
    rcases hs₁ with rfl | rfl
    · exact ⟨h, .of_eq rfl rfl⟩
    · refine ⟨(h.rotate crc32c).1, Nat.le_succ _, fun n hn i hi => ?_⟩
      obtain ⟨t, ht⟩ := h.isOpen
      have hclose : (s.vlog.close crc32c s.vlogs).2.inode = s.vlogs.inode := by
        simp [VLogBuilder.close, ht.builder]
      have hfresh : (s.vlog.close crc32c s.vlogs).2.inode s.lastVlogFileNo = none := by
        rw [hclose]
        exact h.fresh _ le_rfl
      have hcreate : (s.rotateVlog crc32c).vlogs.inode n
          = (s.vlog.close crc32c s.vlogs).2.inode n := by
        change ((s.vlog.close crc32c s.vlogs).2.create s.lastVlogFileNo).2.inode n = _
        rw [Dir.create_snd hfresh]
        exact Function.update_of_ne hn.ne _ _
      rw [hcreate, hclose] at hi
      exact hi
  obtain ⟨t, ht⟩ := h₁.isOpen
  obtain ⟨info', b', d', t', happend', -, -, ⟨hinode, -⟩, -⟩ :=
    ht.append crc32c (.ofWrite w.key s.lastSequence w.type) w.value
  obtain ⟨rfl, rfl, rfl⟩ : info' = info ∧ b' = vlog ∧ d' = vlogs := by
    simpa using Outcome.ok.inj (happend'.symm.trans happend)
  refine ⟨hnames.1, fun n hn i hi => hnames.2 n hn i ?_⟩
  simpa only [hinode] using hi

/-- **Every step keeps the names below the counter, or drops them.** -/
theorem Machine.Step.names {m m' : Machine} {a : Action} (taken : Machine.Step crc32c m a m')
    (owned : m.store.VLogsOwned) (ordered : SeqOrdered m) : m.store.NamesFrom m'.store := by
  cases taken with
  | write ok => exact owned.names_write ok
  | @read info =>
      obtain ⟨handles, hs⟩ := m.store.readValue_handles crc32c info
      rw [hs]
      exact .of_eq rfl rfl
  | handOver ok =>
      rw [(Store.handOver_cases ok).2]
      exact .of_eq rfl rfl
  | flush idle full ok =>
      obtain ⟨e₀, es, -, rfl⟩ := Store.writeLevel0Table_cases ok
      exact .of_eq rfl rfl
  | flushFail => exact .of_eq rfl rfl
  | clearImm => exact .of_eq rfl rfl
  | compact idle ok =>
      rcases Store.compactLevel_cases ok ordered.numbered with
        rfl | ⟨info, r, new, -, p, hcomp, -, rfl⟩
      · exact .of_eq rfl rfl
      · obtain ⟨hbase, -⟩ := hcomp.owners p.old_ne (.init owned.wf owned.fresh)
        exact ⟨hbase.start_le, fun n hn i hi => (hbase.names n hn).symm.trans hi⟩
  | compactFail idle left =>
      exact ⟨left.vlog_le, fun n hn i hi => (left.inode_eq n hn).symm.trans hi⟩
  | expireAt ok =>
      obtain ⟨live, rfl, -⟩ := Store.expireAt_cases ok
      exact .of_eq rfl rfl
  | @runTask i =>
      unfold Store.runTask
      split
      · exact .of_eq rfl rfl
      · rename_i task hi
        refine ⟨le_rfl, fun n _ j hj => ?_⟩
        change (task.2.foldl Dir.unlink m.store.vlogs).inode n = some j at hj
        rw [(Store.unlinkList_spec owned.wf task.2).2.2 n] at hj
        split at hj
        · exact absurd hj (by simp)
        · exact hj

/-- The files that the reader of a store has open. -/
abbrev Store.HandlesAgree (s : Store) : Prop := Agree s.handles s.vlogs s.lastVlogFileNo

/-- Only reads change the open files. -/
theorem Machine.Step.handles {m m' : Machine} {a : Action} (taken : Machine.Step crc32c m a m')
    (ordered : SeqOrdered m) :
    m'.store.handles = m.store.handles ∨ ∃ info, m' = { m with
      store := (m.store.readValue crc32c info).2 } := by
  cases taken with
  | write ok => exact .inl (Store.writeImpl_files ok).2.2
  | @read info => exact .inr ⟨info, rfl⟩
  | handOver ok =>
      rw [(Store.handOver_cases ok).2]
      exact .inl rfl
  | flush idle full ok =>
      obtain ⟨e₀, es, -, rfl⟩ := Store.writeLevel0Table_cases ok
      exact .inl rfl
  | flushFail => exact .inl rfl
  | clearImm => exact .inl rfl
  | compact idle ok =>
      rcases Store.compactLevel_cases ok ordered.numbered with
        rfl | ⟨info, r, new, -, -, -, -, rfl⟩
      · exact .inl rfl
      · exact .inl rfl
  | compactFail idle left =>
      refine .inl ?_
      rw [left.same]
  | expireAt ok =>
      obtain ⟨live, rfl, -⟩ := Store.expireAt_cases ok
      exact .inl rfl
  | @runTask i =>
      unfold Store.runTask
      split
      · exact .inl rfl
      · exact .inl rfl

/-- **The files that are open agree with the directory, over every run.** -/
theorem agree_of_reachable {cond : Machine → Action → Prop} {m : Machine}
    (h : Machine.Reachable crc32c cond m) : m.store.HandlesAgree := by
  induction h with
  | new => exact .nil
  | @step m m' a reached _ taken ih =>
      have howned := vlogsOwned_of_reachable reached
      have hordered := seqOrdered_of_reachable reached
      obtain ⟨hle, hnames⟩ := taken.names howned hordered
      rcases taken.handles hordered with hsame | ⟨info, rfl⟩
      · rw [Store.HandlesAgree, hsame]
        exact ih.mono hle hnames
      · rw [Store.HandlesAgree, Store.readValue_eq]
        exact ih.read howned.fresh pread _ info

/-! ## Recorded ranges over a run -/

theorem le_getLast_of_sorted {es : List (Entry VLogEntryInfo)} (sorted : StrictlySorted es)
    (ne : es ≠ []) : ∀ e ∈ es, e.key ≤ (es.getLast ne).key := by
  intro e he
  have hsplit := List.dropLast_append_getLast ne
  rw [← hsplit] at he sorted
  rcases List.mem_append.mp he with he | he
  · exact ((List.pairwise_append.mp sorted).2.2 e he _ (List.mem_singleton_self _)).le
  · rw [List.mem_singleton.mp he]

/-- A sorted list lies between its first and its last entry. -/
theorem covers_of_sorted {e : Entry VLogEntryInfo} {es : List (Entry VLogEntryInfo)}
    (sorted : StrictlySorted (e :: es)) (fileNumber vlogFileNo : ℕ) :
    SSTFile.Covers ⟨fileNumber, e.key, ((e :: es).getLast (List.cons_ne_nil _ _)).key, vlogFileNo,
      e :: es⟩ := by
  intro d hd
  refine ⟨?_, le_getLast_of_sorted sorted _ d hd⟩
  rcases List.mem_cons.mp hd with rfl | hd
  · exact le_rfl
  · exact ((List.pairwise_cons.mp sorted).1 d hd).le

/-- Every table lies within the range that is recorded for it. -/
def Store.TablesCovered (s : Store) : Prop := ∀ i, ∀ f ∈ levelAt s.levels i, f.Covers

/-- **Every step keeps the recorded ranges right**, if everything is merged in order. -/
theorem Store.TablesCovered.step {m m' : Machine} {a : Action} (h : m.store.TablesCovered)
    (versions : VersionsOrdered m) (meets : m.Merging a) (taken : Machine.Step crc32c m a m') :
    m'.store.TablesCovered := by
  have hsame : m'.store.levels = m.store.levels → m'.store.TablesCovered := by
    intro hlevels
    rw [Store.TablesCovered, hlevels]
    exact h
  have hquiet : a.Quiet → m'.store.TablesCovered := fun hq => hsame (taken.quiet hq).1.levels
  cases taken with
  | write ok => exact hsame (Store.writeImpl_fields ok).2.2.1
  | handOver ok =>
      refine hsame ?_
      rw [(Store.handOver_cases ok).2]
  | @flush imm _ idle full ok =>
      have hsorted := versions.imm imm full
      obtain ⟨e₀, es, hentries, rfl⟩ := Store.writeLevel0Table_cases ok
      rw [hentries] at hsorted
      intro i f hf
      rcases (mem_levelAt_flush versions.numbered rfl).mp hf with ⟨-, rfl⟩ | hf
      · exact covers_of_sorted hsorted _ _
      · exact h i f hf
  | clearImm => exact hsame rfl
  | compact idle ok =>
      rcases Store.compactLevel_cases ok versions.numbered with
        rfl | ⟨info, r, new, hpick, p, hcomp, hlevels, rfl⟩
      · exact h
      · intro i f hf
        rw [hlevels] at hf
        rcases (p.mem_level hcomp).mp hf with ⟨-, hf⟩ | ⟨hf, -⟩
        · cases hcomp with
          | move moves => exact h _ f (p.mem_old hf)
          | merge merges b built =>
              obtain ⟨htwo, visited, hvisit, -⟩ := visit_of_built p.old_ne built
              have hmergeable := versions.inputs_mergeable p htwo
              have hvisited : StrictlySorted visited := by
                simpa using (visited_sorted_iff hmergeable hvisit).mpr (meets info hpick merges)
              exact buildWhenCompaction_covers hvisit hvisited built f hf
        · exact h i f hf
  | _ => exact hquiet trivial

/-! ## Runs in which reads are right -/

/-- The condition on the steps of a run: sizes fit, compactions merge everything in order
and do not separate the versions of a key. -/
def Machine.Orderly (m : Machine) (a : Action) : Prop := m.Ordering a ∧ m.Merging a ∧ m.Fitting a

/-- What is needed to follow a read. -/
structure Intact (crc32c : Bytes → ℕ) (m : Machine) : Prop where
  versions : VersionsOrdered m
  covered : m.store.TablesCovered
  files : m.store.TableFiles
  durable : Durable crc32c m
  account : Accounted m
  handles : m.store.HandlesAgree

theorem intact_of_reachable {cond : Machine → Action → Prop}
    (orderly : ∀ m a, cond m a → m.Orderly a) {m : Machine}
    (h : Machine.Reachable crc32c cond m) : Intact crc32c m where
  versions := versionsOrdered_of_reachable (fun m a hm => (orderly m a hm).1) h
  covered := by
    induction h with
    | new =>
        intro i f hf
        simp [Machine.new] at hf
    | step reached meets taken ih =>
        exact ih.step (versionsOrdered_of_reachable (fun m a hm => (orderly m a hm).1) reached)
          (orderly _ _ meets).2.1 taken
  files := tableFiles_of_reachable h
  durable := durable_of_reachable (fun m a hm => (orderly m a hm).2.2.sized) h
  account := accounted_of_reachable h
  handles := agree_of_reachable h

/-! ## Searching the levels -/

/-- The first version of a user key in a list of tables. -/
def firstInTables (files : List (SSTFile VLogEntryInfo)) (u : Bytes) : Option (Entry VLogEntryInfo) :=
  files.findSome? fun f => lookup f.entries u

/-- The first version of a user key in the order of a read. -/
def Store.firstHit (s : Store) (u : Bytes) : Option (Entry VLogEntryInfo) :=
  (s.shallowSources ++ s.deepSources).findSome? fun src => lookup src u

/-- A table that a read at sequence number `q` can search. -/
structure SSTFile.Searchable (sstFiles : ℕ → Bool) (q : ℕ) (f : SSTFile VLogEntryInfo) : Prop where
  present : sstFiles f.fileNumber = true
  sorted : StrictlySorted f.entries
  covers : f.Covers
  newer : ∀ e ∈ f.entries, e.key.seq < q

section Levels

variable {sstFiles : ℕ → Bool} {q : ℕ} {u : Bytes}

theorem SSTFile.Searchable.read {f : SSTFile VLogEntryInfo} (h : f.Searchable sstFiles q) :
    openAndRead sstFiles (queryKey q u) f = sstAnswer (lookup f.entries u) := by
  rw [openAndRead, if_pos h.present]
  exact readTable_eq_lookup h.sorted h.covers h.newer u

/-- A table whose range does not hold a user key holds no version of it. -/
theorem SSTFile.Covers.lookup_eq_none {f : SSTFile VLogEntryInfo} (covers : f.Covers)
    (miss : f.mayHold u = false) : lookup f.entries u = none := by
  refine Lsmkv.lookup_eq_none.mpr fun e he hu => ?_
  obtain ⟨hsmall, hlarge⟩ := covers e he
  have hmay : f.mayHold u = true := by
    simp only [SSTFile.mayHold, Bool.and_eq_true, decide_eq_true_eq]
    exact ⟨hu ▸ InternalKey.userKey_le_of_le hlarge, hu ▸ InternalKey.userKey_le_of_le hsmall⟩
  exact absurd hmay (by simp [miss])

/-- A search that comes to an end has found nothing or a version. -/
theorem sstAnswer_cases (found : Option (Entry VLogEntryInfo)) :
    (found = none ∧ sstAnswer found = .fail .kNotFound) ∨
      ∃ e info, found = some e ∧ sstAnswer found = .ok info := by
  cases found with
  | none => exact .inl ⟨rfl, rfl⟩
  | some e =>
      refine .inr ⟨e, if e.key.type = .kTypeValue then e.value else .zero, rfl, ?_⟩
      simp only [sstAnswer]
      split
      · rfl
      · rfl

/-- `ReadBatch` finds the first version in its tables. -/
theorem readBatch_eq_first {files : List (SSTFile VLogEntryInfo)}
    (searchable : ∀ f ∈ files, f.Searchable sstFiles q) :
    readBatch sstFiles (queryKey q u) (files.filter fun f => f.mayHold u)
      = sstAnswer (firstInTables files u) := by
  induction files with
  | nil => rfl
  | cons f files ih =>
      have hf := searchable f List.mem_cons_self
      have ih := ih fun g hg => searchable g (List.mem_cons_of_mem _ hg)
      rw [firstInTables, List.findSome?_cons]
      cases hmay : f.mayHold u with
      | false =>
          rw [List.filter_cons_of_neg (by simp [hmay]), hf.covers.lookup_eq_none hmay]
          exact ih
      | true =>
          rw [List.filter_cons_of_pos (by simpa using hmay), readBatch, hf.read]
          rcases sstAnswer_cases (lookup f.entries u) with ⟨hnone, hfail⟩ | ⟨e, info, hsome, hok⟩
          · rw [hnone]
            exact ih
          · rw [hok]
            rw [hsome] at hok ⊢
            exact hok.symm

theorem firstInTables_append (files files' : List (SSTFile VLogEntryInfo)) :
    firstInTables (files ++ files') u = (firstInTables files u).or (firstInTables files' u) :=
  List.findSome?_append

/-- The search of the deeper levels finds the first version in them. -/
theorem getDeeper_eq_first {levels : List (Level VLogEntryInfo)}
    (searchable : ∀ f ∈ levels.flatten, f.Searchable sstFiles q) :
    getDeeper sstFiles (queryKey q u) levels (.fail .kNotFound)
      = sstAnswer (firstInTables levels.flatten u) := by
  induction levels with
  | nil => rfl
  | cons level levels ih =>
      have hlevel : ∀ f ∈ level, f.Searchable sstFiles q :=
        fun f hf => searchable f (by simp [hf])
      have ih := ih fun f hf => searchable f (by simp only [List.flatten_cons, List.mem_append]; exact .inr hf)
      have hread : (if (level.filter fun f => f.mayHold u).isEmpty then .fail .kNotFound
          else readBatch sstFiles (queryKey q u) (level.filter fun f => f.mayHold u))
          = sstAnswer (firstInTables level u) := by
        rw [← readBatch_eq_first hlevel]
        split
        · rename_i hempty
          rw [List.isEmpty_iff.mp hempty]
          rfl
        · rfl
      rw [getDeeper, queryKey_userKey, List.flatten_cons, firstInTables_append]
      simp only [hread]
      rcases sstAnswer_cases (firstInTables level u) with ⟨hnone, hfail⟩ | ⟨e, info, hsome, hok⟩
      · rw [hnone, Option.none_or, ← ih]
        rfl
      · simp only [hok]
        rw [hsome, Option.some_or, ← hsome, hok]

/-- **The search of the levels finds the first version in the order of a read.** -/
theorem getLevels_eq_first {level0 : Level VLogEntryInfo} {levels : List (Level VLogEntryInfo)}
    (searchable : ∀ f ∈ level0.reverse ++ levels.flatten, f.Searchable sstFiles q) :
    getLevels sstFiles (queryKey q u) (level0 :: levels)
      = sstAnswer (firstInTables (level0.reverse ++ levels.flatten) u) := by
  have hlevel0 := fun f hf => searchable f (List.mem_append_left _ hf)
  have hdeeper := fun f hf => searchable f (List.mem_append_right _ hf)
  rw [getLevels, queryKey_userKey, readBatch_eq_first hlevel0, firstInTables_append]
  rcases sstAnswer_cases (firstInTables level0.reverse u) with ⟨hnone, hfail⟩ | ⟨e, info, hsome, hok⟩
  · rw [hnone, Option.none_or, ← getDeeper_eq_first hdeeper]
    rfl
  · simp only [hok]
    rw [hsome, Option.some_or, ← hsome, hok]

/-- The tables in the order of a read are those of the levels. -/
theorem mem_tables {levels : List (Level VLogEntryInfo)} {f : SSTFile VLogEntryInfo} :
    f ∈ (levelAt levels 0).reverse ++ (levels.drop 1).flatten ↔ ∃ i, f ∈ levelAt levels i := by
  rw [List.mem_append, List.mem_reverse, List.mem_flatten]
  constructor
  · rintro (hf | ⟨level, hlevel, hf⟩)
    · exact ⟨0, hf⟩
    · obtain ⟨i, hi, rfl⟩ := List.mem_iff_getElem.mp (List.mem_of_mem_drop hlevel)
      exact ⟨i, mem_levelAt.mpr ⟨hi, hf⟩⟩
  · rintro ⟨i, hf⟩
    cases i with
    | zero => exact .inl hf
    | succ i =>
        obtain ⟨hi, hf⟩ := mem_levelAt.mp hf
        refine .inr ⟨_, List.mem_iff_getElem?.mpr ⟨i, ?_⟩, hf⟩
        rw [List.getElem?_drop, Nat.add_comm, List.getElem?_eq_getElem hi]

/-- The same, for the levels of a store. -/
theorem Store.getLevels_eq_first (s : Store)
    (searchable : ∀ i, ∀ f ∈ levelAt s.levels i, f.Searchable s.sstFiles s.lastSequence)
    (ne : s.levels ≠ []) :
    getLevels s.sstFiles (queryKey s.lastSequence u) s.levels
      = sstAnswer (firstInTables ((levelAt s.levels 0).reverse ++ (s.levels.drop 1).flatten) u) := by
  have hsearch : ∀ f ∈ (levelAt s.levels 0).reverse ++ (s.levels.drop 1).flatten,
      f.Searchable s.sstFiles s.lastSequence := by
    intro f hf
    obtain ⟨i, hf⟩ := mem_tables.mp hf
    exact searchable i f hf
  cases hlevels : s.levels with
  | nil => exact absurd hlevels ne
  | cons level0 levels =>
      rw [hlevels] at hsearch
      exact Lsmkv.getLevels_eq_first hsearch

end Levels

/-! ## `GetImpl` -/

theorem Store.firstHit_eq (s : Store) (u : Bytes) :
    s.firstHit u = (lookup s.mem.entries u).or ((s.imm.bind fun imm => lookup imm.entries u).or
      (firstInTables ((levelAt s.levels 0).reverse ++ (s.levels.drop 1).flatten) u)) := by
  have himm : (s.imm.toList.map (·.entries)).findSome? (fun src => lookup src u)
      = s.imm.bind fun imm => lookup imm.entries u := by
    cases s.imm with
    | none => rfl
    | some imm =>
        simp only [Option.toList_some, List.map_singleton, List.findSome?_singleton]
        rfl
  have htables : ∀ files : List (SSTFile VLogEntryInfo),
      (files.map (·.entries)).findSome? (fun src => lookup src u) = firstInTables files u := by
    intro files
    rw [List.findSome?_map]
    rfl
  rw [Store.firstHit, Store.shallowSources, Store.deepSources, List.cons_append, List.findSome?_cons,
    List.append_assoc, List.findSome?_append, himm, ← List.map_append, htables]
  cases lookup s.mem.entries u with
  | none => rfl
  | some e => rfl

/-- The sources of a read hold what the store holds. -/
theorem Store.mem_sources {s : Store} {e : Entry VLogEntryInfo} :
    e ∈ (s.shallowSources ++ s.deepSources).flatten ↔ s.Holds e := by
  rw [List.mem_flatten]
  constructor
  · rintro ⟨src, hsrc, he⟩
    rcases List.mem_append.mp hsrc with hsrc | hsrc
    · rcases List.mem_cons.mp hsrc with rfl | hsrc
      · exact .inl he
      · rcases List.mem_append.mp hsrc with hsrc | hsrc
        · obtain ⟨imm, himm, rfl⟩ := List.mem_map.mp hsrc
          exact .inr (.inl ⟨imm, Option.mem_toList.mp himm, he⟩)
        · obtain ⟨f, hf, rfl⟩ := List.mem_map.mp hsrc
          exact .inr (.inr ⟨0, f, List.mem_reverse.mp hf, he⟩)
    · obtain ⟨j, -, f, hf, rfl⟩ := mem_deepSources.mp hsrc
      exact .inr (.inr ⟨j, f, hf, he⟩)
  · rintro (he | ⟨imm, himm, he⟩ | ⟨i, f, hf, he⟩)
    · exact ⟨_, List.mem_append_left _ List.mem_cons_self, he⟩
    · refine ⟨imm.entries, List.mem_append_left _ (List.mem_cons_of_mem _ ?_), he⟩
      exact List.mem_append_left _ (List.mem_map_of_mem (Option.mem_toList.mpr himm))
    · rcases Nat.eq_zero_or_pos i with rfl | hi
      · refine ⟨f.entries, List.mem_append_left _ (List.mem_cons_of_mem _ ?_), he⟩
        exact List.mem_append_right _ (List.mem_map_of_mem (List.mem_reverse.mpr hf))
      · exact ⟨f.entries, List.mem_append_right _ (mem_deepSources.mpr ⟨i, hi, f, hf, rfl⟩), he⟩

theorem Store.holds_of_firstHit {s : Store} {u : Bytes} {e : Entry VLogEntryInfo}
    (hit : s.firstHit u = some e) : s.Holds e ∧ e.key.userKey = u := by
  obtain ⟨src, hsrc, hlookup⟩ := List.exists_of_findSome?_eq_some hit
  exact ⟨Store.mem_sources.mp (List.mem_flatten.mpr ⟨src, hsrc, lookup_mem hlookup⟩),
    lookup_userKey hlookup⟩

/-- The location of a value that is held leads to the value of its write. -/
theorem Durable.resolve_value {m : Machine} {e : Entry VLogEntryInfo} (h : Durable crc32c m)
    (handles : m.store.HandlesAgree) (held : m.store.Holds e) (type : e.key.type = .kTypeValue)
    {w : Write} (write : m.history[e.key.seq]? = some w) :
    (m.store.resolve crc32c (.ok e.value)).1
      = expiryCheck (some m.store.lastLivingSequence) e.key.encode w.value := by
  obtain ⟨w', hw', hresolves⟩ := h.resolves e held type
  obtain rfl : w' = w := Option.some.inj (hw'.symm.trans write)
  have hlength : e.value.length ≠ 0 := by
    rw [hresolves.length_eq]
    simp [recordLength]
  rw [Store.resolve, if_neg hlength, Store.readValue_eq]
  exact readCached_of_resolves handles.same hresolves _

/-- The immutable memtable is the first to know a user key. -/
def Store.ServedByImm (s : Store) (u : Bytes) : Prop :=
  lookup s.mem.entries u = none ∧ ∃ imm, s.imm = some imm ∧ lookup imm.entries u ≠ none

namespace Intact

variable {m : Machine} {u : Bytes} {e : Entry VLogEntryInfo}

theorem searchable (h : Intact crc32c m) {f : SSTFile VLogEntryInfo} {i : ℕ}
    (hf : f ∈ levelAt m.store.levels i) :
    f.Searchable m.store.sstFiles m.store.lastSequence where
  present := h.files.present i f hf
  sorted := h.versions.tables i f hf
  covers := h.covered i f hf
  newer e he := h.versions.below e (.inr (.inr ⟨i, f, hf, he⟩))

/-- The memtable and the immutable memtable answer for their newest version. -/
theorem get_mem (h : Intact crc32c m) :
    m.store.mem.get (queryKey m.store.lastSequence u) = memAnswer (lookup m.store.mem.entries u) :=
  MemTable.get_eq_lookup h.versions.mem (fun e he => h.versions.below e (.inl he)) u

theorem get_imm (h : Intact crc32c m) :
    (m.store.imm.bind fun imm => imm.get (queryKey m.store.lastSequence u))
      = memAnswer (m.store.imm.bind fun imm => lookup imm.entries u) := by
  cases himm : m.store.imm with
  | none => rfl
  | some imm =>
      exact MemTable.get_eq_lookup (h.versions.imm imm himm)
        (fun e he => h.versions.below e (.inr (.inl ⟨imm, himm, he⟩))) u

/-- The levels answer for the first version in them. -/
theorem get_levels (h : Intact crc32c m) (ne : m.store.levels ≠ []) :
    getLevels m.store.sstFiles (queryKey m.store.lastSequence u) m.store.levels
      = sstAnswer (firstInTables
          ((levelAt m.store.levels 0).reverse ++ (m.store.levels.drop 1).flatten) u) :=
  m.store.getLevels_eq_first (fun _ _ hf => h.searchable hf) ne

/-- Nothing is found of a key that no place holds. -/
theorem getImpl_of_none (h : Intact crc32c m) (miss : m.store.firstHit u = none) :
    (m.store.getImpl crc32c u).1 = .fail .kNotFound := by
  rw [Store.firstHit_eq, Option.or_eq_none_iff, Option.or_eq_none_iff] at miss
  obtain ⟨hmem, himm, htables⟩ := miss
  rw [Store.getImpl, h.get_mem, h.get_imm, hmem, himm]
  simp only [memAnswer]
  split
  · rfl
  · rename_i hne
    rw [h.get_levels (by simpa using hne), htables]
    rfl

/-- A deletion that is found first is answered with `NotFound`. -/
theorem getImpl_of_deletion (h : Intact crc32c m) (hit : m.store.firstHit u = some e)
    (type : e.key.type = .kTypeDeletion) : (m.store.getImpl crc32c u).1 = .fail .kNotFound := by
  have hne : e.key.type ≠ .kTypeValue := by simp [type]
  rw [Store.firstHit_eq] at hit
  rw [Store.getImpl, h.get_mem, h.get_imm]
  cases hmem : lookup m.store.mem.entries u with
  | some d =>
      obtain rfl : d = e := by simpa [hmem] using hit
      simp [memAnswer, hne, Store.resolve]
  | none =>
      rw [hmem, Option.none_or] at hit
      cases himm : m.store.imm.bind fun imm => lookup imm.entries u with
      | some d =>
          obtain rfl : d = e := by simpa [himm] using hit
          simp [memAnswer, hne]
      | none =>
          rw [himm, Option.none_or] at hit
          simp only [memAnswer]
          split
          · rfl
          · rename_i hlevels
            rw [h.get_levels (by simpa using hlevels), hit]
            simp [sstAnswer, hne, Store.resolve, VLogEntryInfo.zero]

/-- A value that is found first is read from the value log, if the immutable memtable is not
the one that knows it. -/
theorem getImpl_of_value (h : Intact crc32c m) (hit : m.store.firstHit u = some e)
    (type : e.key.type = .kTypeValue) (notImm : ¬ m.store.ServedByImm u) {w : Write}
    (write : m.history[e.key.seq]? = some w) :
    (m.store.getImpl crc32c u).1
      = expiryCheck (some m.store.lastLivingSequence) e.key.encode w.value := by
  have hheld := (Store.holds_of_firstHit hit).1
  rw [← h.durable.resolve_value h.handles hheld type write]
  rw [Store.firstHit_eq] at hit
  rw [Store.getImpl, h.get_mem, h.get_imm]
  cases hmem : lookup m.store.mem.entries u with
  | some d =>
      obtain rfl : d = e := by simpa [hmem] using hit
      simp [memAnswer, type]
  | none =>
      rw [hmem, Option.none_or] at hit
      have himm : (m.store.imm.bind fun imm => lookup imm.entries u) = none := by
        cases himm : m.store.imm with
        | none => rfl
        | some imm =>
            by_contra hne
            exact notImm ⟨hmem, imm, himm, hne⟩
      rw [himm, Option.none_or] at hit
      rw [himm]
      simp only [memAnswer]
      split
      · rename_i hlevels
        rw [List.isEmpty_iff.mp hlevels] at hit
        simp [firstInTables, levelAt] at hit
      · rename_i hlevels
        rw [h.get_levels (by simpa using hlevels), hit]
        simp [sstAnswer, type]

/-- **A value that the immutable memtable knows is answered with the empty value.** -/
theorem getImpl_of_imm (h : Intact crc32c m) (hit : m.store.firstHit u = some e)
    (type : e.key.type = .kTypeValue) (served : m.store.ServedByImm u) :
    (m.store.getImpl crc32c u).1 = .ok [] := by
  obtain ⟨hmem, imm, himm, hne⟩ := served
  obtain ⟨d, hd⟩ := Option.ne_none_iff_exists'.mp hne
  have hbind : (m.store.imm.bind fun imm => lookup imm.entries u) = some d := by
    rw [himm]
    exact hd
  rw [Store.firstHit_eq, hmem, hbind, Option.none_or, Option.some_or] at hit
  obtain rfl : d = e := Option.some.inj hit
  rw [Store.getImpl, h.get_mem, h.get_imm, hmem, hbind]
  simp [memAnswer, type]

end Intact

/-! ## Reads and the history -/

/-- The last write to a key, with its sequence number. -/
def lastWrite (history : List Write) (u : Bytes) : Option (Write × ℕ) :=
  history.zipIdx.reverse.find? fun p => decide (p.1.key = u)

/-- What a `get` should answer: the value of the last write, if it is a `put`. -/
def answer (history : List Write) (u : Bytes) : Outcome Bytes :=
  match lastWrite history u with
  | some (w, _) => if w.type = .kTypeValue then .ok w.value else .fail .kNotFound
  | none => .fail .kNotFound

section LastWrite

variable {history : List Write} {u : Bytes}

theorem lastWrite_concat (history : List Write) (w : Write) (u : Bytes) :
    lastWrite (history ++ [w]) u
      = if w.key = u then some (w, history.length) else lastWrite history u := by
  rw [lastWrite, List.zipIdx_append, List.reverse_append]
  by_cases hw : w.key = u
  · simp [hw]
  · simp [hw, lastWrite]

/-- **What is the last write.** -/
theorem lastWrite_eq_some {w : Write} {n : ℕ} :
    lastWrite history u = some (w, n) ↔ history[n]? = some w ∧ w.key = u ∧
      ∀ n' (w' : Write), history[n']? = some w' → w'.key = u → n' ≤ n := by
  induction history using List.reverseRecOn with
  | nil => simp [lastWrite]
  | append_singleton history w₁ ih =>
      have hcases : ∀ (n' : ℕ) (w' : Write), (history ++ [w₁])[n']? = some w' ↔
          history[n']? = some w' ∨ n' = history.length ∧ w' = w₁ := by
        intro n' w'
        rcases lt_trichotomy n' history.length with hlt | rfl | hgt
        · rw [List.getElem?_append_left hlt]
          simp [hlt.ne]
        · simp [eq_comm]
        · rw [List.getElem?_eq_none (by simp; omega), List.getElem?_eq_none hgt.le]
          simp [hgt.ne']
      rw [lastWrite_concat]
      by_cases hw₁ : w₁.key = u
      · rw [if_pos hw₁]
        constructor
        · intro h
          obtain ⟨rfl, rfl⟩ : w₁ = w ∧ history.length = n := by simpa using h
          refine ⟨by simp, hw₁, fun n' w' hn' _ => ?_⟩
          have hlt := (List.getElem?_eq_some_iff.mp hn').1
          simp at hlt
          omega
        · rintro ⟨hn, hw, hmax⟩
          have hge := hmax history.length w₁ (by simp) hw₁
          rcases (hcases n w).mp hn with hn | ⟨rfl, rfl⟩
          · have hlt := (List.getElem?_eq_some_iff.mp hn).1
            omega
          · rfl
      · rw [if_neg hw₁, ih]
        constructor
        · rintro ⟨hn, hw, hmax⟩
          refine ⟨(hcases n w).mpr (.inl hn), hw, fun n' w' hn' hw' => ?_⟩
          rcases (hcases n' w').mp hn' with hn' | ⟨-, rfl⟩
          · exact hmax n' w' hn' hw'
          · exact absurd hw' hw₁
        · rintro ⟨hn, hw, hmax⟩
          rcases (hcases n w).mp hn with hn | ⟨-, rfl⟩
          · exact ⟨hn, hw, fun n' w' hn' hw' => hmax n' w' ((hcases n' w').mpr (.inl hn')) hw'⟩
          · exact absurd hw hw₁

theorem lastWrite_eq_none :
    lastWrite history u = none ↔ ∀ (n : ℕ) (w : Write), history[n]? = some w → w.key ≠ u := by
  induction history using List.reverseRecOn with
  | nil => simp [lastWrite]
  | append_singleton history w₁ ih =>
      rw [lastWrite_concat]
      split
      · rename_i hw₁
        simp only [reduceCtorEq, false_iff]
        intro h
        exact h history.length w₁ (by simp) hw₁
      · rename_i hw₁
        rw [ih]
        constructor
        · intro h n w hn
          rcases List.mem_append.mp (List.mem_of_getElem? hn) with hw | hw
          · obtain ⟨k, hk⟩ := List.mem_iff_getElem?.mp hw
            exact h k w hk
          · rw [List.mem_singleton.mp hw]
            exact hw₁
        · intro h n w hn
          refine h n w ?_
          rw [List.getElem?_append_left (List.getElem?_eq_some_iff.mp hn).1]
          exact hn

end LastWrite

namespace Intact

variable {m : Machine} {u : Bytes} {e : Entry VLogEntryInfo}

theorem sources_sorted (h : Intact crc32c m) :
    ∀ src ∈ m.store.shallowSources ++ m.store.deepSources, StrictlySorted src := by
  intro src hsrc
  rcases List.mem_append.mp hsrc with hsrc | hsrc
  · rcases List.mem_cons.mp hsrc with rfl | hsrc
    · exact h.versions.mem
    · rcases List.mem_append.mp hsrc with hsrc | hsrc
      · obtain ⟨imm, himm, rfl⟩ := List.mem_map.mp hsrc
        exact h.versions.imm imm (Option.mem_toList.mp himm)
      · obtain ⟨f, hf, rfl⟩ := List.mem_map.mp hsrc
        exact h.versions.tables 0 f (List.mem_reverse.mp hf)
  · obtain ⟨j, -, f, hf, rfl⟩ := mem_deepSources.mp hsrc
    exact h.versions.tables j f hf

/-- The first hit is the newest version of the key that is held. -/
theorem firstHit_newest (h : Intact crc32c m) (hit : m.store.firstHit u = some e) :
    ∀ d, m.store.Holds d → d.key.userKey = u → d.key.seq ≤ e.key.seq := by
  have hnewest : Newest (fun e : Entry VLogEntryInfo => e.key.userKey) (fun e => e.key.seq)
      (m.store.shallowSources ++ m.store.deepSources).flatten u e := by
    refine newest_of_findSome h.versions.inOrder (fun src hsrc x hx => ?_)
      (fun src _ hnone y hy => lookup_eq_none.mp hnone y hy) hit
    obtain ⟨hmem, hkey, hmax⟩ := lookup_isNewest (h.sources_sorted src hsrc) hx
    exact ⟨hmem, hkey, fun y hy hyu => Nat.div_le_div_right (hmax y hy hyu)⟩
  intro d hd hu
  exact hnewest.2.2 d (Store.mem_sources.mpr hd) hu

theorem firstHit_ne_none (hd : m.store.Holds e) (hu : e.key.userKey = u) :
    m.store.firstHit u ≠ none := by
  intro hnone
  obtain ⟨src, hsrc, he⟩ := List.mem_flatten.mp (Store.mem_sources.mpr hd)
  exact lookup_eq_none.mp (List.findSome?_eq_none_iff.mp hnone src hsrc) e he hu

/-- A key that was never written is not found. -/
theorem firstHit_eq_none (h : Intact crc32c m) (never : lastWrite m.history u = none) :
    m.store.firstHit u = none := by
  by_contra hne
  obtain ⟨e, hit⟩ := Option.ne_none_iff_exists'.mp hne
  obtain ⟨he, hu⟩ := Store.holds_of_firstHit hit
  obtain ⟨w, hw, hkey⟩ := h.account.sound e he
  refine lastWrite_eq_none.mp never _ w hw ?_
  rw [← hu, hkey, InternalKey.ofWrite_userKey]

/-- **The first hit is the last write**, if that has not expired. -/
theorem firstHit_of_lastWrite (h : Intact crc32c m) {w : Write} {n : ℕ}
    (last : lastWrite m.history u = some (w, n)) (alive : m.store.lastLivingSequence ≤ n) :
    ∃ e, m.store.firstHit u = some e ∧ e.key = .ofWrite u n w.type := by
  obtain ⟨hn, hwu, hmax⟩ := lastWrite_eq_some.mp last
  obtain ⟨d, hd, hdkey⟩ := h.account.complete n w hn alive
  have hdu : d.key.userKey = u := by simp [hdkey, hwu]
  obtain ⟨e, hit⟩ := Option.ne_none_iff_exists'.mp (firstHit_ne_none hd hdu)
  obtain ⟨he, hu⟩ := Store.holds_of_firstHit hit
  obtain ⟨w', hw', hkey⟩ := h.account.sound e he
  have hge : n ≤ e.key.seq := by
    simpa [hdkey] using h.firstHit_newest hit d hd hdu
  have hle : e.key.seq ≤ n := by
    refine hmax _ w' hw' ?_
    rw [← hu, hkey, InternalKey.ofWrite_userKey]
  obtain rfl : e.key.seq = n := le_antisymm hle hge
  obtain rfl : w' = w := Option.some.inj (hw'.symm.trans hn)
  exact ⟨e, hit, hwu ▸ hkey⟩

/-- Sequence numbers that are held have tags of 64 bits. -/
theorem expiryCheck_alive (h : Intact crc32c m) (held : m.store.Holds e)
    (alive : m.store.lastLivingSequence ≤ e.key.seq) (value : Bytes) :
    expiryCheck (some m.store.lastLivingSequence) e.key.encode value = .ok value := by
  have htag : e.key.tag < 2 ^ 64 := by
    have hlt := h.versions.below e held
    have hsmall := h.versions.small
    simp only [InternalKey.seq, kMaxSequenceNumber] at hlt hsmall
    omega
  simp [expiryCheck, InternalKey.decode_encode _ htag, not_lt.mpr alive]

/-- **What `GetImpl` answers for a key whose last write has not expired.** -/
theorem getImpl_alive (h : Intact crc32c m) {w : Write} {n : ℕ}
    (last : lastWrite m.history u = some (w, n)) (alive : m.store.lastLivingSequence ≤ n) :
    (w.type = .kTypeValue → ¬ m.store.ServedByImm u → (m.store.getImpl crc32c u).1 = .ok w.value) ∧
    (w.type = .kTypeValue → m.store.ServedByImm u → (m.store.getImpl crc32c u).1 = .ok []) ∧
    (w.type = .kTypeDeletion → (m.store.getImpl crc32c u).1 = .fail .kNotFound) := by
  obtain ⟨e, hit, hkey⟩ := h.firstHit_of_lastWrite last alive
  obtain ⟨hn, -, -⟩ := lastWrite_eq_some.mp last
  have hseq : e.key.seq = n := by simp [hkey]
  have htype : e.key.type = w.type := by simp [hkey]
  refine ⟨fun hvalue hserved => ?_, fun hvalue hserved => ?_, fun hdeletion => ?_⟩
  · rw [h.getImpl_of_value hit (htype.trans hvalue) hserved (hseq ▸ hn)]
    exact h.expiryCheck_alive (Store.holds_of_firstHit hit).1 (hseq ▸ alive) _
  · exact h.getImpl_of_imm hit (htype.trans hvalue) hserved
  · exact h.getImpl_of_deletion hit (htype.trans hdeletion)

end Intact

/-! ## `get` over runs of writes -/

/-- An orderly run without `ExpireAt`. -/
def Machine.Unexpired (m : Machine) (a : Action) : Prop := m.Orderly a ∧ ∀ seq, a ≠ .expireAt seq

/-- Only `ExpireAt` moves the bound. -/
theorem Machine.Step.live {m m' : Machine} {a : Action} (taken : Machine.Step crc32c m a m') :
    (∃ seq, a = .expireAt seq) ∨ m'.store.lastLivingSequence = m.store.lastLivingSequence := by
  cases taken with
  | write ok => exact .inr (Store.writeImpl_fields ok).2.2.2.2.2
  | @read info =>
      obtain ⟨handles, hs⟩ := m.store.readValue_handles crc32c info
      rw [hs]
      exact .inr rfl
  | handOver ok =>
      rw [(Store.handOver_cases ok).2]
      exact .inr rfl
  | flush idle full ok =>
      obtain ⟨e₀, es, -, rfl⟩ := Store.writeLevel0Table_cases ok
      exact .inr rfl
  | flushFail => exact .inr rfl
  | clearImm => exact .inr rfl
  | compact idle ok =>
      simp only [Store.compactLevel] at ok
      split at ok
      · rw [← Outcome.ok.inj ok]
        exact .inr rfl
      · obtain ⟨r, -, hok⟩ := Outcome.bind_eq_ok.mp ok
        rw [← Outcome.ok.inj hok]
        exact .inr rfl
  | compactFail idle left =>
      rw [left.same]
      exact .inr rfl
  | @expireAt seq s ok => exact .inl ⟨seq, rfl⟩
  | @runTask i =>
      unfold Store.runTask
      split
      · exact .inr rfl
      · exact .inr rfl

theorem Machine.Unexpired.live {m : Machine} (h : Machine.Reachable crc32c Machine.Unexpired m) :
    m.store.lastLivingSequence = 0 := by
  induction h with
  | new => rfl
  | step _ meets taken ih =>
      rcases taken.live with ⟨seq, rfl⟩ | hsame
      · exact absurd rfl (meets.2 seq)
      · exact hsame.trans ih

/-- When nothing has expired, `ExpireAt` was not called. -/
theorem Machine.Reachable.living {cond : Machine → Action → Prop} {m : Machine}
    (reached : Machine.Reachable crc32c cond m) (live : m.store.lastLivingSequence = 0) :
    Machine.Reachable crc32c (fun m a => cond m a ∧ ∀ seq, a ≠ .expireAt seq) m := by
  induction reached with
  | new => exact .new
  | @step m m' a reached meets taken ih =>
      have hnot : ∀ seq, a ≠ .expireAt seq := by
        rintro seq rfl
        cases taken with
        | expireAt ok =>
            simp only [Store.expireAt] at ok
            split at ok
            · exact absurd ok (by simp)
            · split at ok
              · rename_i hlt
                rw [← Outcome.ok.inj ok] at live
                exact absurd (hlt.trans_eq live) (Nat.not_lt_zero _)
              · rw [← Outcome.ok.inj ok] at live
                exact absurd live (Nat.succ_ne_zero _)
      refine .step (ih ?_) ⟨meets, hnot⟩ taken
      rcases taken.live with ⟨seq, rfl⟩ | hsame
      · exact absurd rfl (hnot seq)
      · exact hsame.symm.trans live

/-- **Runs of different keys are orderly.** -/
theorem Machine.Reachable.unexpired_of_differs {m : Machine}
    (reached : Machine.Reachable crc32c Machine.Regular m)
    (differs : Differs m.history) (small : m.history.length ≤ kMaxSequenceNumber)
    (live : m.store.lastLivingSequence = 0) : Machine.Reachable crc32c Machine.Unexpired m :=
  ((reached.ordering differs small).living live).mono fun _ _ h =>
    ⟨⟨h.1.2.1, h.1.2.2, h.1.1.2⟩, h.2⟩

/-- **`get` answers with the last write exactly as long as that is not in the immutable
memtable.**  After every orderly run of `put`s of values that are not empty and `del`s, with
any background steps between them, `get` returns the value of the last write of the key if
that is a `put` and `NotFound` otherwise, if and only if it is not the immutable memtable
that has to answer with a value. -/
theorem get_eq_answer_iff {m : Machine} (reached : Machine.Reachable crc32c Machine.Unexpired m)
    (values : ∀ w ∈ m.history, w.type = .kTypeValue → w.value ≠ []) (u : Bytes) :
    (m.store.getImpl crc32c u).1 = answer m.history u ↔
      ∀ w n, lastWrite m.history u = some (w, n) → w.type = .kTypeValue →
        ¬ m.store.ServedByImm u := by
  have h : Intact crc32c m := intact_of_reachable (fun _ _ hm => hm.1) reached
  have hlive := Machine.Unexpired.live reached
  cases hlast : lastWrite m.history u with
  | none =>
      simp [answer, hlast, h.getImpl_of_none (h.firstHit_eq_none hlast)]
  | some p =>
      obtain ⟨w, n⟩ := p
      obtain ⟨hvalue, himm, hdeletion⟩ := h.getImpl_alive hlast (by omega)
      have hmem : w ∈ m.history := List.mem_of_getElem? (lastWrite_eq_some.mp hlast).1
      cases htype : w.type with
      | kTypeDeletion =>
          simp only [answer, hlast, htype, hdeletion htype]
          simp [htype]
      | kTypeValue =>
          simp only [answer, hlast, htype, if_true]
          by_cases hserved : m.store.ServedByImm u
          · rw [himm htype hserved]
            simp only [Outcome.ok.injEq]
            constructor
            · intro hnil
              exact absurd hnil.symm (values w hmem htype)
            · intro hnot
              exact absurd hserved (hnot w n rfl htype)
          · rw [hvalue htype hserved]
            simp [hserved]

/-- In a history of long writes the last write to a key is one of them. -/
theorem lastWrite_longWrite {history : List Write} (all : ∀ w ∈ history, ∃ u, w = longWrite u)
    {key : Bytes} (written : longWrite key ∈ history) :
    ∃ n, lastWrite history key = some (longWrite key, n) := by
  cases hlast : lastWrite history key with
  | none =>
      obtain ⟨n, hn⟩ := List.mem_iff_getElem?.mp written
      exact absurd rfl (lastWrite_eq_none.mp hlast n _ hn)
  | some p =>
      obtain ⟨w, n⟩ := p
      obtain ⟨hn, hkey, -⟩ := lastWrite_eq_some.mp hlast
      obtain ⟨u, rfl⟩ := all w (List.mem_of_getElem? hn)
      obtain rfl : u = key := hkey
      exact ⟨n, rfl⟩

/-- **Six writes**, and the `get` of a key whose table was merged into level 1, while another key is
in the immutable memtable. -/
theorem get_eq_answer_merged :
    ∃ m, Machine.Reachable crc32cCastagnoli Machine.Unexpired m ∧
      (levelAt m.store.levels 1).length = 4 ∧ m.store.tasks ≠ [] ∧ m.store.imm ≠ none ∧
      (m.store.getImpl crc32cCastagnoli (0 :: longKey)).1 = .ok [9] := by
  obtain ⟨m, reached, hlive, hhist, hlevel, htasks, ⟨imm, himm, hkeys⟩, -⟩ :=
    Machine.exists_merged crc32cCastagnoli
  have hunexpired := reached.unexpired_of_differs (hhist ▸ Machine.differs_sixKeys)
    (by rw [hhist]; decide) hlive
  obtain ⟨n, hlast⟩ : ∃ n, lastWrite m.history (0 :: longKey)
      = some (longWrite (0 :: longKey), n) :=
    lastWrite_longWrite (by simp [hhist, longWrite]) (by simp [hhist, Machine.sixKeys])
  have hanswer : answer m.history (0 :: longKey) = .ok [9] := by
    rw [answer, hlast]
    rfl
  refine ⟨m, hunexpired, hlevel, htasks, by simp [himm], hanswer ▸ ?_⟩
  refine (get_eq_answer_iff hunexpired ?_ _).mpr fun w n _ _ hserved => ?_
  · simp [hhist, longWrite]
  · obtain ⟨-, imm', himm', hfound⟩ := hserved
    obtain rfl : imm' = imm := Option.some.inj (himm'.symm.trans himm)
    refine hfound (lookup_eq_none.mpr fun e he => ?_)
    simp [hkeys e he]

theorem answer_one_put (key value : Bytes) :
    answer [⟨key, .kTypeValue, value⟩] key = .ok value := by
  simp [answer, lastWrite]

/-- A filling `put` and its hand-over. -/
theorem Machine.exists_handed_over (crc32c : Bytes → ℕ) {w : Write} (fills : Machine.Fills w) :
    ∃ m, Machine.Reachable crc32c Machine.Regular m ∧ m.history = [w] ∧
      (m.store.getImpl crc32c w.key).1 = .ok [] := by
  obtain ⟨s, imm, info, hrun, hmem, himm, hentries, hseq, -⟩ :=
    Machine.Resting.fill crc32c (m := .new) ⟨rfl, rfl, rfl⟩ .init (by decide) fills
  have hsmall : s.lastSequence = 1 := hseq
  have hget : imm.get (queryKey s.lastSequence w.key) = some (.ok info) := by
    have hle : queryKey 1 w.key ≤ .ofWrite w.key 0 .kTypeValue := by
      simp [InternalKey.le_iff, queryKey, InternalKey.ofWrite, ValueType.code]
    rw [MemTable.get, hentries, hsmall]
    simp [Machine.new, Store.new, hle, fills.value]
  refine ⟨_, Machine.Reachable.new.run (hrun.mono fun _ _ hm => hm.1), rfl, ?_⟩
  rw [Store.getImpl, hmem, himm]
  simp only [Option.bind_some, hget]
  rfl

/-- **A value that was handed over is lost for `get`** until it is flushed: it is answered
with success and the empty value. -/
theorem get_empty_after_handOver :
    ∃ m, Machine.Reachable crc32cCastagnoli Machine.Regular m ∧
      m.history = [⟨List.replicate 24544 0, .kTypeValue, [9]⟩] ∧
      answer m.history (List.replicate 24544 0) = .ok [9] ∧
      (m.store.getImpl crc32cCastagnoli (List.replicate 24544 0)).1 = .ok [] := by
  obtain ⟨m, hreach, hhist, hget⟩ :=
    Machine.exists_handed_over crc32cCastagnoli (Machine.fills_replicate 0)
  refine ⟨m, hreach, hhist, ?_, hget⟩
  rw [hhist]
  exact answer_one_put _ _

end Lsmkv
