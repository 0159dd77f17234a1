import Lsmkv.DeepLevels

/-!
# What a read finds first

A read asks the sources of a store one after the other and takes what it finds first.
`first_hit_newest` says in which runs this is the newest version of the key, and
`first_hit_stale` is a run in which it is not.

As long as no key is written twice, and all keys have one length, every compaction merges in
comparator order and separates no versions (`Differs`), so a regular run with such keys is one
in which the order is kept (`Machine.Reachable.ordering`).
-/

namespace Lsmkv

open ByteCode Merging ReadOrder

/-! ## Keys that differ -/

/-- No key is written twice, and all keys have one length. -/
structure Differs (history : List Write) : Prop where
  keys : (history.map (·.key)).Nodup
  lengths : ∀ w ∈ history, ∀ w' ∈ history, w.key.length = w'.key.length

theorem Differs.sublist {history history' : List Write} (h : Differs history)
    (sub : history'.Sublist history) : Differs history' :=
  ⟨h.keys.sublist (sub.map _), fun w hw w' hw' => h.lengths w (sub.subset hw) w' (sub.subset hw')⟩

section Differs

variable {m : Machine} {d e : Entry VLogEntryInfo}

/-- Entries of one user key are entries of one write. -/
theorem Accounted.key_eq (h : Accounted m) (differs : Differs m.history) (hd : m.store.Holds d)
    (he : m.store.Holds e) (same : d.key.userKey = e.key.userKey) : d.key = e.key := by
  obtain ⟨w, hw, hdkey⟩ := h.sound d hd
  obtain ⟨w', hw', hekey⟩ := h.sound e he
  have hkeys : w.key = w'.key := by
    rw [hdkey, hekey] at same
    exact same
  obtain ⟨hlt, -⟩ := List.getElem?_eq_some_iff.mp hw
  have hat : (m.history.map (·.key))[d.key.seq]? = (m.history.map (·.key))[e.key.seq]? := by
    rw [List.getElem?_map, List.getElem?_map, hw, hw', Option.map_some, Option.map_some, hkeys]
  have hseq : d.key.seq = e.key.seq :=
    (List.getElem?_inj (by rwa [List.length_map]) differs.keys).mp hat
  obtain rfl : w = w' := Option.some.inj (hw.symm.trans (hseq ▸ hw'))
  rw [hdkey, hekey, hseq]

/-- The user keys of all entries have one length. -/
theorem Accounted.length_eq (h : Accounted m) (differs : Differs m.history) (hd : m.store.Holds d)
    (he : m.store.Holds e) : d.key.userKey.length = e.key.userKey.length := by
  obtain ⟨w, hw, hdkey⟩ := h.sound d hd
  obtain ⟨w', hw', hekey⟩ := h.sound e he
  rw [hdkey, hekey]
  exact differs.lengths w (List.mem_of_getElem? hw) w' (List.mem_of_getElem? hw')

end Differs

/-- Behind keys of one length the rest does not matter. -/
theorem append_lt_append_of_lt {u v : Bytes} (lt : u < v) (length : u.length = v.length)
    (s t : Bytes) : u ++ s < v ++ t := by
  induction u generalizing v with
  | nil =>
      rw [List.length_nil] at length
      rw [List.eq_nil_of_length_eq_zero length.symm] at lt
      exact absurd lt (lt_irrefl _)
  | cons a u ih =>
      cases v with
      | nil => simp at length
      | cons b v =>
          rw [List.cons_append, List.cons_append, List.cons_lt_cons_iff]
          rcases List.cons_lt_cons_iff.mp lt with hlt | ⟨rfl, hlt⟩
          · exact .inl hlt
          · exact .inr ⟨rfl, ih hlt (Nat.succ.inj length)⟩

/-- **Tables whose user keys have one length, and one version each, merge in order.** -/
theorem mergeOrdered_of_differs {β : Type} {inputs : List (List (Entry β))}
    (lengths : ∀ d ∈ inputs.flatten, ∀ e ∈ inputs.flatten,
      d.key.userKey.length = e.key.userKey.length)
    (versions : ∀ d ∈ inputs.flatten, ∀ e ∈ inputs.flatten, d.key.userKey = e.key.userKey →
      d.key = e.key) (live : ℕ) : MergeOrdered live inputs := by
  intro i j _ a ha b hb _ _ hlt
  refine ⟨b, hb, le_rfl, fun a' ha' hle => ?_⟩
  have hin := mem_flatten_of_getD ha'
  have hin' := mem_flatten_of_getD hb
  have huser : a'.key.userKey < b.key.userKey := by
    have hkey := hle.trans_lt hlt
    rcases InternalKey.lt_iff.mp hkey with huser | ⟨heq, -⟩
    · exact huser
    · exact absurd (versions a' hin b hin' heq) hkey.ne
  exact append_lt_append_of_lt huser (lengths a' hin b hin') _ _

/-! ## Runs with such keys -/

namespace Machine

variable {crc32c : Bytes → ℕ} {m : Machine}

/-- What a compaction reads belongs to the store. -/
theorem holds_of_mem_inputs {info : CompactInfo VLogEntryInfo}
    (p : Picked m.store.levels m.store.fileno info) {e : Entry VLogEntryInfo}
    (he : e ∈ info.inputs.flatten) : m.store.Holds e := by
  obtain ⟨f, hf, he⟩ := mem_inputs.mp he
  rcases p.mem_input hf with hf | hf
  · exact .inr (.inr ⟨_, f, hf, he⟩)
  · exact .inr (.inr ⟨_, f, hf, he⟩)

/-- **A compaction of such keys** merges everything in order and separates no versions. -/
theorem merges_of_differs (versions : VersionsOrdered m) (account : Accounted m)
    (differs : Differs m.history) {level : ℕ} {info : CompactInfo VLogEntryInfo}
    (pick : pickCompaction m.store.levels level = some info) :
    KeysTogether m.store.levels info ∧ ∀ live, MergeOrdered live info.inputs := by
  have p : Picked m.store.levels m.store.fileno info :=
    ⟨versions.numbered, (pickCompaction_cases pick).1 ▸ pick⟩
  have hholds : ∀ {i f e}, f ∈ levelAt m.store.levels i → e ∈ f.entries → m.store.Holds e :=
    fun hf he => .inr (.inr ⟨_, _, hf, he⟩)
  have hapart : ∀ {i j f g}, f ∈ levelAt m.store.levels i → g ∈ levelAt m.store.levels j →
      ¬ (i = j ∧ f = g) → f.Apart g := by
    intro i j f g hf hg hne d hd e he heq
    have hkey := account.key_eq differs (hholds hf hd) (hholds hg he) heq
    exact hne (versions.distinct i j f hf g hg d hd e he hkey)
  refine ⟨⟨fun _ f hf g hg hout => ?_, fun f hf g hg hout => ?_, fun f hf g hg hout _ => ?_⟩,
    fun live => mergeOrdered_of_differs (fun d hd e he => ?_) (fun d hd e he => ?_) live⟩
  · exact hapart (p.mem_old hf) hg fun h => hout (h.2 ▸ hf)
  · exact hapart (p.mem_old hf) hg fun h => absurd h.1 (Nat.ne_of_lt (Nat.lt_succ_self _))
  · exact hapart (p.mem_overlap.mp hf).1 hg fun h => hout (h.2 ▸ hf)
  · exact account.length_eq differs (holds_of_mem_inputs p hd) (holds_of_mem_inputs p he)
  · exact account.key_eq differs (holds_of_mem_inputs p hd) (holds_of_mem_inputs p he)

/-- Everything that a compaction reads is merged in comparator order. -/
def Merging (m : Machine) : Action → Prop
  | .compact level => ∀ info, pickCompaction m.store.levels level = some info → ¬ info.Moves →
      MergeOrdered 0 info.inputs
  | _ => True

/-- **A run with such keys keeps the order.** -/
theorem Reachable.ordering {cond : Machine → Action → Prop} (reached : Reachable crc32c cond m)
    (differs : Differs m.history) (small : m.history.length ≤ kMaxSequenceNumber) :
    Reachable crc32c (fun m a => cond m a ∧ m.Ordering a ∧ m.Merging a) m := by
  induction reached with
  | new => exact .new
  | @step m m' a reached meets taken ih =>
      have hgrows : m.history.Sublist m'.history := taken.history.sublist
      have hbefore := ih (differs.sublist hgrows) (hgrows.length_le.trans small)
      refine hbefore.step ⟨meets, ?_⟩ taken
      have hversions := versionsOrdered_of_reachable (fun _ _ h => h.2.1) hbefore
      have haccount := accounted_of_reachable reached
      cases a with
      | write w garbage height =>
          refine ⟨?_, trivial⟩
          show m.store.lastSequence ≤ kMaxSequenceNumber
          rw [haccount.length]
          exact hgrows.length_le.trans small
      | compact level =>
          have hmerges : ∀ info, pickCompaction m.store.levels level = some info →
              KeysTogether m.store.levels info ∧ ∀ live, MergeOrdered live info.inputs :=
            fun _ => merges_of_differs hversions haccount (differs.sublist hgrows)
          exact ⟨fun info hpick => ⟨(hmerges info hpick).1, fun _ => (hmerges info hpick).2 _⟩,
            fun info hpick _ => (hmerges info hpick).2 0⟩
      | _ => exact ⟨trivial, trivial⟩

/-- The keys of six writes. -/
def sixKeys : List Bytes := [0, 1, 2, 3, 4, 5].map fun b => b :: longKey

theorem differs_sixKeys : Differs (sixKeys.map longWrite) := by
  refine ⟨?_, fun w hw w' hw' => ?_⟩
  · simp [sixKeys, longWrite]
  · simp only [sixKeys, longWrite, List.map_map, List.mem_map, Function.comp_apply] at hw hw'
    obtain ⟨a, -, rfl⟩ := hw
    obtain ⟨b, -, rfl⟩ := hw'
    simp

variable (crc32c) in
/-- **A run of six writes**: four tables are merged into level 1, and wait to be deleted; one write
is in the immutable memtable and one in the memtable. -/
theorem exists_merged : ∃ m, Reachable crc32c Regular m ∧ m.store.lastLivingSequence = 0 ∧
    m.history = sixKeys.map longWrite ∧ (levelAt m.store.levels 1).length = 4 ∧
    m.store.tasks ≠ [] ∧
    (∃ imm, m.store.imm = some imm ∧ ∀ e ∈ imm.entries, e.key.userKey = 4 :: longKey) ∧
    m.store.mem.entries ≠ [] := by
  have hnew := Tower.new crc32c fun _ _ => True
  obtain ⟨m₁, h₁, hhist₁⟩ := hnew.fill (n := 1) (by decide) (isLong_cons_longKey 0) trivial
  obtain ⟨m₂, h₂, hhist₂⟩ := h₁.fill (n := 1) (by decide) (isLong_cons_longKey 1) trivial
  obtain ⟨m₃, h₃, hhist₃⟩ := h₂.fill (n := 1) (by decide) (isLong_cons_longKey 2) trivial
  obtain ⟨m₄, h₄, hhist₄⟩ := h₃.fill (n := 1) (by decide) (isLong_cons_longKey 3) trivial
  obtain ⟨info, r, new, p, hlevel, hold, hcomp, -, -, h₅⟩ :=
    h₄.compact (i := 0) (.inl ⟨rfl, le_rfl⟩) fun _ _ => trivial
  have htasks : (m₄.store.compacted r).tasks ≠ [] := by
    cases hcomp with
    | move moves => exact absurd hlevel moves.1
    | merge _ _ _ _ rm_sst rm_vlog =>
        have hne : info.rmSstFiles ≠ [] := by simp [CompactInfo.rmSstFiles, p.old_ne]
        simp [Store.compacted, rm_sst, hne]
  obtain ⟨s, imm, value, hreached, hmem, himm, hentries, hlive, -, htasks', -, hlevels⟩ :=
    h₅.write (by decide) (isLong_cons_longKey 4)
  obtain ⟨s', ok⟩ := (vlogsOwned_of_reachable hreached).writeImpl_isOk crc32c
    (longWrite (5 :: longKey)) .zero 1
  obtain ⟨⟨value', hmem'⟩, himm', hlevels', -, -, hlive'⟩ := Store.writeImpl_fields ok
  have hmeets : Machine.Regular ⟨s, false, m₄.history ++ [longWrite (4 :: longKey)]⟩
      (.write (longWrite (5 :: longKey)) .zero 1) := by
    refine ⟨?_, (isLong_cons_longKey 5).fills.fits⟩
    show s.mem.memoryUsage ≤ Store.memMaxSize
    rw [hmem]
    decide
  refine ⟨_, hreached.step hmeets (.write ok), hlive'.trans hlive, ?_, ?_, ?_,
    ⟨imm, himm'.trans himm, ?_⟩, ?_⟩
  · show (m₄.history ++ _) ++ _ = _
    rw [hhist₄, hhist₃, hhist₂, hhist₁]
    rfl
  · rw [show s'.levels = _ from hlevels'.trans hlevels]
    exact h₅.size 1
  · rw [show s'.tasks = _ from (Store.writeImpl_files ok).1.trans htasks']
    exact htasks
  · rw [hentries]
    simp
  · rw [show s'.mem = _ from hmem', hmem]
    simp [MemTable.put, insertEntry, MemTable.new]

end Machine

/-- **What a read finds first is never older.**  In every run, sequence numbers grow from the
deeper levels over level 0, in the order of its numbers, and the immutable memtable to the
memtable, so what is found first in one of these is not older than what is found later.
When every compaction merges in order and keeps versions together, the same holds for what
is found first in a deeper level. -/
theorem first_hit_newest (crc32c : Bytes → ℕ) :
    (∀ m, Machine.Reachable crc32c (fun _ _ => True) m →
      (∀ imm, m.store.imm = some imm → ∀ e ∈ m.store.mem.entries, ∀ d ∈ imm.entries,
        d.key.seq < e.key.seq) ∧
      (∀ imm, m.store.imm = some imm → ∀ f ∈ levelAt m.store.levels 0,
        m.OwnFlush 0 f ∨ ∀ e ∈ imm.entries, ∀ d ∈ f.entries, d.key.seq < e.key.seq) ∧
      (∀ f ∈ levelAt m.store.levels 0, ∀ g ∈ levelAt m.store.levels 0,
        f.fileNumber < g.fileNumber → ∀ d ∈ f.entries, ∀ e ∈ g.entries, d.key.seq < e.key.seq) ∧
      (∀ f ∈ levelAt m.store.levels 0, ∀ j, 1 ≤ j → ∀ g ∈ levelAt m.store.levels j,
        ∀ e ∈ f.entries, ∀ d ∈ g.entries, d.key.seq < e.key.seq) ∧
      m.store.shallowSources.Pairwise NeverOlder ∧
      ∀ a ∈ m.store.shallowSources, ∀ b ∈ m.store.deepSources, NeverOlder a b) ∧
    ∀ m, Machine.Reachable crc32c Machine.Ordering m →
      InOrder (fun e : Entry VLogEntryInfo => e.key.userKey) (fun e => e.key.seq)
        (m.store.shallowSources ++ m.store.deepSources) := by
  refine ⟨fun m hm => ?_, fun m hm => (versionsOrdered_of_reachable (fun _ _ h => h) hm).inOrder⟩
  have h := seqOrdered_of_reachable hm
  exact ⟨h.mem_imm, fun imm himm => h.imm_levels imm himm 0, h.level0, h.deeper, h.shallow_inOrder⟩

/-- Six writes of different keys: four tables are merged into level 1, and wait to be deleted; one
write is in the immutable memtable and one in the memtable. -/
theorem first_hit_newest_merged :
    ∃ m, Machine.Reachable crc32cCastagnoli Machine.Ordering m ∧
      (levelAt m.store.levels 1).length = 4 ∧ m.store.tasks ≠ [] ∧ m.store.imm ≠ none ∧
      m.store.mem.entries ≠ [] ∧
      InOrder (fun e : Entry VLogEntryInfo => e.key.userKey) (fun e => e.key.seq)
        (m.store.shallowSources ++ m.store.deepSources) := by
  obtain ⟨m, reached, -, hhist, hlevel, htasks, ⟨imm, himm, -⟩, hmem⟩ :=
    Machine.exists_merged crc32cCastagnoli
  have hordering : Machine.Reachable crc32cCastagnoli Machine.Ordering m :=
    (reached.ordering (hhist ▸ Machine.differs_sixKeys) (by rw [hhist]; decide)).mono
      fun _ _ h => h.2.1
  exact ⟨m, hordering, hlevel, htasks, by simp [himm], hmem,
    (first_hit_newest crc32cCastagnoli).2 m hordering⟩

/-- After four writes of a key of 32768 bytes, with a flush after each and the compaction that
follows, the first version found in level 1 is older than a later one. -/
theorem first_hit_stale :
    ∃ m, Machine.Reachable crc32cCastagnoli Machine.Scheduled m ∧
      m.history = List.replicate 4 ⟨List.replicate 32768 0, .kTypeValue, [9]⟩ ∧
      ¬ InOrder (fun e : Entry VLogEntryInfo => e.key.userKey) (fun e => e.key.seq)
        (m.store.shallowSources ++ m.store.deepSources) := by
  have hlen : (List.replicate 32768 (0 : Byte)).length = 32768 := List.length_replicate
  obtain ⟨m, hreach, -, hhist, -, -, hstale⟩ := exists_stale_level1 crc32cCastagnoli
    (List.replicate 32768 0) [9] hlen.ge (by rw [hlen]; decide) (by
      rw [Write.Fits, hlen]
      decide)
  refine ⟨m, hreach.mono fun _ _ h => h.1, hhist, fun horder => hstale ?_⟩
  exact (List.pairwise_append.mp horder).2.1

end Lsmkv
