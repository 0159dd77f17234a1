import Lsmkv.Compaction

/-!
# The order of a compaction's output

The loser tree compares encoded keys as byte strings (`lhs->key() < rhs->key()`), while
tables are sorted by `InternalKeyComparator`.  The two orders differ: the tag is
little-endian and ascending in the bytes, and the tag of a short key is compared with
the user key bytes of a longer one.

An input that is sorted by the comparator is not sorted by its bytes, and a merge takes
an entry as soon as its table has given out everything before it.  So the place of an
entry in the output is decided by the largest encoded key up to it in its own table, and
`MergeOrdered` is the exact condition on the inputs under which the output is sorted.
-/

namespace Lsmkv

open ByteCode Merging

variable {β : Type}

/-- **The inputs merge in comparator order.**  Whenever an entry `a` of one table is
before an entry `b` of another, the table of `b` holds, up to `b`, an encoded key above
all encoded keys of the table of `a` up to `a`.  Expired entries are not written and
need not be in order. -/
def MergeOrdered (live : ℕ) (inputs : List (List (Entry β))) : Prop :=
  ∀ i j, i ≠ j → ∀ a ∈ inputs.getD i [], ∀ b ∈ inputs.getD j [],
    live ≤ a.key.seq → live ≤ b.key.seq → a.key < b.key →
      Overtakes (fun e : Entry β => e.key.encode) Entry.key (inputs.getD i []) (inputs.getD j [])
        a b

/-- Tables that a compaction can be given: sorted, with distinct 64-bit-tagged keys. -/
structure Mergeable (inputs : List (List (Entry β))) : Prop where
  two : 2 ≤ inputs.length
  sorted : ∀ t ∈ inputs, StrictlySorted t
  distinct : (inputs.flatten.map Entry.key).Nodup
  tags : ∀ e ∈ inputs.flatten, e.key.tag < 2 ^ 64

theorem mem_flatten_of_getD {inputs : List (List (Entry β))} {i : ℕ} {e : Entry β}
    (h : e ∈ inputs.getD i []) : e ∈ inputs.flatten := by
  by_cases hi : i < inputs.length
  · rw [List.getD_eq_getElem _ _ hi] at h
    exact List.mem_flatten.mpr ⟨_, List.getElem_mem hi, h⟩
  · rw [List.getD_eq_default _ _ (not_lt.mp hi)] at h
    simp at h

/-- Entries of different tables have different keys. -/
theorem Mergeable.key_ne {inputs : List (List (Entry β))} (h : Mergeable inputs) {i j : ℕ}
    (hij : i ≠ j) {a b : Entry β} (ha : a ∈ inputs.getD i []) (hb : b ∈ inputs.getD j []) :
    a.key ≠ b.key := by
  have hdisj : inputs.Pairwise fun s t => ∀ x ∈ s, ∀ y ∈ t, x.key ≠ y.key := by
    have := h.distinct
    rw [List.map_flatten, List.Nodup, List.pairwise_flatten] at this
    rw [List.pairwise_map] at this
    refine this.2.imp ?_
    intro s t hst x hx y hy
    exact hst x.key (List.mem_map_of_mem hx) y.key (List.mem_map_of_mem hy)
  have hlt : ∀ {k : ℕ} {e : Entry β}, e ∈ inputs.getD k [] → k < inputs.length := by
    intro k e he
    by_contra hk
    rw [List.getD_eq_default _ _ (not_lt.mp hk)] at he
    simp at he
  have hi := hlt ha
  have hj := hlt hb
  rw [List.getD_eq_getElem _ _ hi] at ha
  rw [List.getD_eq_getElem _ _ hj] at hb
  rcases lt_or_gt_of_ne hij with hlt | hgt
  · exact List.pairwise_iff_getElem.mp hdisj i j hi hj hlt a ha b hb
  · exact (List.pairwise_iff_getElem.mp hdisj j i hj hi hgt b hb a ha).symm

/-- **The visited entries that are written are sorted exactly when the inputs merge in
comparator order.** -/
theorem visited_sorted_iff {inputs : List (List (Entry β))} (h : Mergeable inputs) {live : ℕ}
    {visited : List (Entry β)}
    (order : LoserTree.visit (fun e => e.key.encode) inputs = some visited) :
    StrictlySorted (visited.filter fun e => decide (live ≤ e.key.seq))
      ↔ MergeOrdered live inputs := by
  classical
  obtain ⟨out, hout, hmerge⟩ := visit_headMerge (fun e : Entry β => e.key.encode) h.two
  obtain rfl : out = visited := Option.some.inj (hout.symm.trans order)
  have hperm := visit_perm h.two order
  have hnodup : out.Nodup := List.Nodup.of_map Entry.key ((hperm.map Entry.key).nodup_iff.mpr h.distinct)
  have hsorted : ∀ i, (LoserTree.sources inputs i).Pairwise fun a b => a.key < b.key := by
    intro i
    by_cases hi : i < inputs.length
    · rw [LoserTree.sources, List.getD_eq_getElem _ _ hi]
      exact h.sorted _ (List.getElem_mem hi)
    · rw [LoserTree.sources, List.getD_eq_default _ _ (not_lt.mp hi)]
      exact List.Pairwise.nil
  have hiff := hmerge.pairwise_rank_iff hnodup hsorted
    (fun i j hij x hx y hy heq => h.key_ne hij hx hy
      (InternalKey.encode_injOn (h.tags x (mem_flatten_of_getD hx))
        (h.tags y (mem_flatten_of_getD hy)) heq))
    (fun i j hij x hx y hy => h.key_ne hij hx hy) (fun e => live ≤ e.key.seq)
  rw [StrictlySorted, List.pairwise_filter]
  simp only [decide_eq_true_eq]
  exact hiff

section BuildWhenCompaction

variable {crc32c : Bytes → ℕ} {live fileno : ℕ} {w : VLogWork}
  {inputs : List (List (Entry VLogEntryInfo))}

/-- The keys written, in order, are the keys visited and not expired. -/
theorem buildWhenCompaction_keys {buildVlog : Bool} {b : Build VLogEntryInfo} {w' : VLogWork}
    {visited : List (Entry VLogEntryInfo)}
    (order : LoserTree.visit (fun e => e.key.encode) inputs = some visited)
    (h : buildWhenCompaction crc32c buildVlog live fileno w inputs = .ok (b, w')) :
    (b.newFiles.flatMap (·.entries)).map Entry.key
      = (visited.filter fun e => decide (live ≤ e.key.seq)).map Entry.key := by
  have hshape := congrArg (fun b : Build Unit => (b.newFiles.flatMap (·.entries)).map Entry.key)
    (buildWhenCompaction_shape order h)
  simp only [Build.shape, Build.view, SSTFile.view, List.flatMap_map, List.map_flatMap,
    List.map_map] at hshape
  rw [← mergedTables_entries _ fileno, List.map_flatMap, List.map_flatMap]
  exact hshape

variable (crc32c live fileno w) in
/-- Keeping the locations of values, a compaction of two or more tables succeeds. -/
theorem buildWhenCompaction_isOk (two : 2 ≤ inputs.length) :
    ∃ r, buildWhenCompaction crc32c false live fileno w inputs = .ok r := by
  obtain ⟨visited, hvisit, -⟩ :=
    visit_headMerge (fun e : Entry VLogEntryInfo => e.key.encode) two
  have hloop : ∀ (es : List (Entry VLogEntryInfo)) (b : Build VLogEntryInfo) (w : VLogWork),
      ∃ r, buildLoop crc32c false live es b w = .ok r := by
    intro es
    induction es with
    | nil => exact fun b w => ⟨(b, w), rfl⟩
    | cons e es ih =>
        intro b w
        obtain ⟨r, hr⟩ : ∃ r, buildStep crc32c false live b w e = .ok r := by
          simp only [buildStep, VLogWork.rewrite]
          split
          · exact ⟨_, rfl⟩
          · split
            · exact ⟨_, rfl⟩
            · exact ⟨_, rfl⟩
        obtain ⟨r', hr'⟩ := ih r.1 r.2
        exact ⟨r', by rw [buildLoop, hr]; exact hr'⟩
  obtain ⟨r, hr⟩ := hloop visited (.start fileno) w
  rw [buildWhenCompaction, hvisit]
  simp only [Outcome.ofOption_some, Outcome.ok_bind, hr]
  exact ⟨_, rfl⟩

/-- The order of the output, for every successful compaction. -/
theorem newFiles_sorted_iff (h : Mergeable inputs) {buildVlog : Bool} {b : Build VLogEntryInfo}
    {w' : VLogWork} (ok : buildWhenCompaction crc32c buildVlog live fileno w inputs = .ok (b, w')) :
    StrictlySorted (b.newFiles.flatMap (·.entries)) ↔ MergeOrdered live inputs := by
  obtain ⟨visited, hvisit, -⟩ :=
    visit_headMerge (fun e : Entry VLogEntryInfo => e.key.encode) h.two
  rw [← visited_sorted_iff h hvisit, strictlySorted_iff_keys, strictlySorted_iff_keys,
    buildWhenCompaction_keys hvisit ok]

end BuildWhenCompaction

/-- **The output of a compaction is sorted exactly when its inputs merge in comparator
order.**  Without value logs the compaction always succeeds; with value logs the
statement is about every compaction that does. -/
theorem buildWhenCompaction_sorted_iff (crc32c : Bytes → ℕ) (live fileno : ℕ) (w : VLogWork)
    {inputs : List (List (Entry VLogEntryInfo))} (two : 2 ≤ inputs.length)
    (sorted : ∀ t ∈ inputs, StrictlySorted t) (distinct : (inputs.flatten.map Entry.key).Nodup)
    (tags : ∀ e ∈ inputs.flatten, e.key.tag < 2 ^ 64) :
    (∃ r, buildWhenCompaction crc32c false live fileno w inputs = .ok r) ∧
    ∀ buildVlog b w', buildWhenCompaction crc32c buildVlog live fileno w inputs = .ok (b, w') →
      (StrictlySorted (b.newFiles.flatMap (·.entries)) ↔ MergeOrdered live inputs) :=
  ⟨buildWhenCompaction_isOk _ _ _ _ two,
    fun _ _ _ ok => newFiles_sorted_iff ⟨two, sorted, distinct, tags⟩ ok⟩

/-- Two tables with different user keys of one length: the output is sorted. -/
theorem buildWhenCompaction_sorted_two_keys :
    let inputs : List (List (Entry VLogEntryInfo)) :=
      [[⟨.ofWrite [1] 3 .kTypeValue, ⟨0, 0, 18⟩⟩], [⟨.ofWrite [2] 1 .kTypeDeletion, .zero⟩]]
    ∃ b w', buildWhenCompaction crc32cCastagnoli false 0 7 ⟨1, Files.Dir.empty, .new⟩ inputs
      = .ok (b, w') ∧ StrictlySorted (b.newFiles.flatMap (·.entries)) := by
  intro inputs
  obtain ⟨⟨⟨b, w'⟩, hok⟩, hiff⟩ := buildWhenCompaction_sorted_iff crc32cCastagnoli 0 7
    ⟨1, Files.Dir.empty, .new⟩ (show 2 ≤ inputs.length by simp [inputs])
    (by simp [inputs, StrictlySorted]) (by simp [inputs, InternalKey.ofWrite])
    (by simp [inputs, InternalKey.ofWrite, ValueType.code])
  refine ⟨b, w', hok, (hiff false b w' hok).mpr ?_⟩
  intro i j hij a ha c hc _ _ hlt
  rcases i with _ | _ | i <;> rcases j with _ | _ | j
  · exact absurd rfl hij
  · simp only [inputs, List.getD_cons_zero, List.getD_cons_succ, List.mem_singleton] at ha hc
    subst ha hc
    refine ⟨_, List.mem_singleton_self _, le_rfl, ?_⟩
    simp only [inputs, List.getD_cons_zero, List.mem_singleton, forall_eq]
    decide
  · simp [inputs] at hc
  · simp only [inputs, List.getD_cons_zero, List.getD_cons_succ, List.mem_singleton] at ha hc
    subst ha hc
    exact absurd hlt (by decide)
  · exact absurd rfl hij
  · simp [inputs] at hc
  · simp [inputs] at ha
  · simp [inputs] at ha
  · simp [inputs] at ha

/-- Two versions of one user key in two tables: the older one is written first. -/
theorem buildWhenCompaction_unsorted_versions :
    let inputs : List (List (Entry VLogEntryInfo)) :=
      [[⟨.ofWrite [1] 5 .kTypeValue, ⟨30, 0, 18⟩⟩], [⟨.ofWrite [1] 3 .kTypeValue, ⟨0, 0, 18⟩⟩]]
    2 ≤ inputs.length ∧ (∀ t ∈ inputs, t ≠ [] ∧ StrictlySorted t) ∧
      (inputs.flatten.map Entry.key).Nodup ∧
      ∃ b w', buildWhenCompaction crc32cCastagnoli false 0 7 ⟨1, Files.Dir.empty, .new⟩ inputs
        = .ok (b, w') ∧ ¬ StrictlySorted (b.newFiles.flatMap (·.entries)) := by
  intro inputs
  have hmergeable : Mergeable inputs :=
    ⟨by simp [inputs], by simp [inputs, StrictlySorted],
      by simp [inputs, InternalKey.ofWrite, ValueType.code],
      by simp [inputs, InternalKey.ofWrite, ValueType.code]⟩
  refine ⟨hmergeable.two, by simp [inputs, StrictlySorted], hmergeable.distinct, ?_⟩
  obtain ⟨⟨b, w'⟩, hok⟩ := buildWhenCompaction_isOk crc32cCastagnoli 0 7
    ⟨1, Files.Dir.empty, .new⟩ hmergeable.two
  refine ⟨b, w', hok, fun hsorted => ?_⟩
  have hover := (newFiles_sorted_iff hmergeable hok).mp hsorted 0 1 (by decide) _
    (List.mem_singleton_self _) _ (List.mem_singleton_self _) (Nat.zero_le _) (Nat.zero_le _)
    (by decide)
  obtain ⟨e, he, -, hall⟩ := hover
  simp only [inputs, List.getD_cons_succ, List.getD_cons_zero, List.mem_singleton] at he
  subst he
  have hbytes := hall _ (List.mem_singleton_self _) le_rfl
  exact absurd hbytes (by decide)

end Lsmkv
