import Lsmkv.Filling
import Lsmkv.Lib.ReadOrder

/-!
# The order of versions over a run

A read asks the memtable, the immutable memtable, level 0 from the largest number down,
and then the deeper levels from top to bottom, each from the smallest number up
(`shallowSources`, `deepSources`).  The order of sequence numbers makes each of the shallow
sources newer than everything behind it, in every run.  Among the deep ones the order is
kept by compactions that merge in comparator order and do not separate versions of a user
key (`Ordering`), and `VersionsOrdered` is the invariant of runs with such compactions.
-/

namespace Lsmkv

open ByteCode Files ReadOrder

variable {crc32c : Bytes → ℕ}

/-! ## The sources of a read -/

/-- What is read before the levels from 1 on. -/
def Store.shallowSources (s : Store) : List (List (Entry VLogEntryInfo)) :=
  s.mem.entries ::
    (s.imm.toList.map (·.entries) ++ (levelAt s.levels 0).reverse.map (·.entries))

/-- The levels from 1 on, in the order they are read. -/
def Store.deepSources (s : Store) : List (List (Entry VLogEntryInfo)) :=
  (s.levels.drop 1).flatten.map (·.entries)

/-- One source is never older than another, for each user key they share. -/
abbrev NeverOlder (earlier later : List (Entry VLogEntryInfo)) : Prop :=
  NotOlder (fun e : Entry VLogEntryInfo => e.key.userKey) (fun e => e.key.seq) earlier later

theorem mem_deepSources {s : Store} {src : List (Entry VLogEntryInfo)} :
    src ∈ s.deepSources ↔ ∃ j, 1 ≤ j ∧ ∃ f ∈ levelAt s.levels j, f.entries = src := by
  simp only [Store.deepSources, List.mem_map, List.mem_flatten]
  constructor
  · rintro ⟨f, ⟨level, hlevel, hf⟩, rfl⟩
    obtain ⟨i, hi, rfl⟩ := List.mem_iff_getElem.mp hlevel
    simp only [List.length_drop] at hi
    refine ⟨i + 1, Nat.succ_pos _, f, mem_levelAt.mpr ⟨by omega, ?_⟩, rfl⟩
    simpa [Nat.add_comm] using hf
  · rintro ⟨j, hj, f, hf, rfl⟩
    obtain ⟨hlt, hf⟩ := mem_levelAt.mp hf
    refine ⟨f, ⟨s.levels[j], ?_, hf⟩, rfl⟩
    rw [List.mem_iff_getElem]
    exact ⟨j - 1, by simp only [List.length_drop]; omega, by simp [Nat.sub_add_cancel hj]⟩

/-- **The shallow sources are in order, and newer than the deep ones.** -/
theorem SeqOrdered.shallow_inOrder {m : Machine} (h : SeqOrdered m) :
    m.store.shallowSources.Pairwise NeverOlder ∧
      ∀ a ∈ m.store.shallowSources, ∀ b ∈ m.store.deepSources, NeverOlder a b := by
  have himm : ∀ imm, m.store.imm = some imm → ∀ i, ∀ f ∈ levelAt m.store.levels i,
      NeverOlder imm.entries f.entries := by
    intro imm himm i f hf
    rcases h.imm_levels imm himm i f hf with hown | hlt
    · rw [h.entries_eq_of_ownFlush hf hown himm]
      exact notOlder_refl _
    · exact notOlder_of_lt fun x hx y hy _ => (hlt x hx y hy).le
  refine ⟨?_, ?_⟩
  · refine List.pairwise_cons.mpr ⟨fun src hsrc => ?_, List.pairwise_append.mpr ⟨?_, ?_, ?_⟩⟩
    · rcases List.mem_append.mp hsrc with hsrc | hsrc
      · obtain ⟨imm, himm, rfl⟩ := List.mem_map.mp hsrc
        exact notOlder_of_lt fun x hx y hy _ =>
          (h.mem_imm imm (Option.mem_toList.mp himm) x hx y hy).le
      · obtain ⟨f, hf, rfl⟩ := List.mem_map.mp hsrc
        exact notOlder_of_lt fun x hx y hy _ =>
          (h.mem_levels 0 f (List.mem_reverse.mp hf) x hx y hy).le
    · cases m.store.imm with
      | none => exact List.Pairwise.nil
      | some imm => exact List.pairwise_singleton _ _
    · rw [List.pairwise_map, List.pairwise_reverse]
      have hasc := h.numbered.ascending 0
      refine hasc.imp_of_mem fun {f g} hf hg hlt => notOlder_of_lt fun x hx y hy _ => ?_
      exact (h.level0 f hf g hg hlt y hy x hx).le
    · intro a ha b hb
      obtain ⟨imm, himm', rfl⟩ := List.mem_map.mp ha
      obtain ⟨f, hf, rfl⟩ := List.mem_map.mp hb
      exact himm imm (Option.mem_toList.mp himm') 0 f (List.mem_reverse.mp hf)
  · intro a ha b hb
    obtain ⟨j, hj, g, hg, rfl⟩ := mem_deepSources.mp hb
    rcases List.mem_cons.mp ha with rfl | ha
    · exact notOlder_of_lt fun x hx y hy _ => (h.mem_levels j g hg x hx y hy).le
    · rcases List.mem_append.mp ha with ha | ha
      · obtain ⟨imm, himm', rfl⟩ := List.mem_map.mp ha
        exact himm imm (Option.mem_toList.mp himm') j g hg
      · obtain ⟨f, hf, rfl⟩ := List.mem_map.mp ha
        exact notOlder_of_lt fun x hx y hy _ =>
          (h.deeper f (List.mem_reverse.mp hf) j hj g hg x hx y hy).le

/-! ## Compactions that keep the order -/

/-- What keeps the versions in order: sequence numbers stay within the 56 bits of a tag,
and a compaction merges in comparator order and does not separate the versions of a user
key. -/
def Machine.Ordering (m : Machine) : Action → Prop
  | .write .. => m.store.lastSequence ≤ kMaxSequenceNumber
  | .compact level => ∀ info, pickCompaction m.store.levels level = some info →
      KeysTogether m.store.levels info ∧
      (¬ info.Moves → MergeOrdered m.store.lastLivingSequence info.inputs)
  | _ => True

/-- **The invariant of runs with such compactions.**  Every source is sorted, no key
occurs in two tables, and the deeper levels are in order. -/
structure VersionsOrdered (m : Machine) : Prop extends SeqOrdered m where
  small : m.store.lastSequence ≤ kMaxSequenceNumber + 1
  mem : StrictlySorted m.store.mem.entries
  imm : ∀ imm, m.store.imm = some imm → StrictlySorted imm.entries
  tables : ∀ i, ∀ f ∈ levelAt m.store.levels i, StrictlySorted f.entries
  distinct : ∀ i j, ∀ f ∈ levelAt m.store.levels i, ∀ g ∈ levelAt m.store.levels j,
    ∀ d ∈ f.entries, ∀ e ∈ g.entries, d.key = e.key → i = j ∧ f = g
  level : ∀ i, 1 ≤ i → LevelOrdered (levelAt m.store.levels i)
  cross : CrossOrdered m.store.levels

theorem InternalKey.tag_lt_of_seq_lt {a b : InternalKey} (h : a.seq < b.seq) : a.tag < b.tag := by
  simp only [InternalKey.seq] at h
  omega

theorem SSTFile.Newer.neverOlder {f g : SSTFile VLogEntryInfo} (h : f.Newer g) :
    NeverOlder f.entries g.entries :=
  notOlder_of_lt fun x hx y hy heq => Nat.div_le_div_right (h x hx y hy heq).le

namespace VersionsOrdered

variable {m : Machine}

theorem deep_inOrder (h : VersionsOrdered m) : m.store.deepSources.Pairwise NeverOlder := by
  have hpair : (m.store.levels.drop 1).flatten.Pairwise SSTFile.Newer := by
    rw [List.pairwise_flatten]
    refine ⟨fun level hlevel => ?_, ?_⟩
    · obtain ⟨i, hi, rfl⟩ := List.mem_iff_getElem.mp hlevel
      simp only [List.length_drop] at hi
      have hat : levelAt m.store.levels (i + 1) = (m.store.levels.drop 1)[i] := by
        simp [levelAt, show i + 1 < m.store.levels.length by omega]
      have hasc := h.numbered.ascending (i + 1)
      have hord := h.level (i + 1) (Nat.succ_pos _)
      rw [hat] at hasc hord
      exact hasc.imp_of_mem fun {f g} hf hg hlt => hord f hf g hg hlt
    · rw [List.pairwise_iff_getElem]
      intro i j hi hj hij f hf g hg
      simp only [List.length_drop] at hi hj
      refine h.cross (i + 1) (j + 1) (Nat.succ_pos _) (by omega) f
        (mem_levelAt.mpr ⟨by omega, ?_⟩) g (mem_levelAt.mpr ⟨by omega, ?_⟩)
      · simpa [Nat.add_comm] using hf
      · simpa [Nat.add_comm] using hg
  rw [Store.deepSources, List.pairwise_map]
  exact hpair.imp fun hfg => hfg.neverOlder

/-- **In such a run the first version that is read is never older than a later one.** -/
theorem inOrder (h : VersionsOrdered m) :
    InOrder (fun e : Entry VLogEntryInfo => e.key.userKey) (fun e => e.key.seq)
      (m.store.shallowSources ++ m.store.deepSources) :=
  List.pairwise_append.mpr
    ⟨h.toSeqOrdered.shallow_inOrder.1, h.deep_inOrder, h.toSeqOrdered.shallow_inOrder.2⟩

theorem init : VersionsOrdered .new where
  toSeqOrdered := .init
  small := Nat.zero_le _
  mem := List.Pairwise.nil
  imm imm himm := by simp [Machine.new, Store.new] at himm
  tables i f hf := by simp [Machine.new] at hf
  distinct i j f hf := by simp [Machine.new] at hf
  level i _ f hf := by simp [Machine.new] at hf
  cross i j _ _ f hf := by simp [Machine.new] at hf

/-- Steps that touch neither memtables nor levels keep the invariant. -/
theorem quiet (h : VersionsOrdered m) {m' : Machine} (same : m.store.SameData m'.store)
    (seq : SeqOrdered m') : VersionsOrdered m' where
  toSeqOrdered := seq
  small := by simpa only [same.lastSequence] using h.small
  mem := by simpa only [same.mem] using h.mem
  imm := by simpa only [same.imm] using h.imm
  tables := by simpa only [same.levels] using h.tables
  distinct := by simpa only [same.levels] using h.distinct
  level := by simpa only [same.levels] using h.level
  cross := by simpa only [same.levels] using h.cross

theorem write (h : VersionsOrdered m) {s : Store} {w : Write} {garbage : VLogEntryInfo} {height : ℕ}
    (room : m.store.lastSequence ≤ kMaxSequenceNumber)
    (ok : m.store.writeImpl crc32c w garbage height = .ok s) (history : List Write) :
    VersionsOrdered ⟨s, m.flushed, history⟩ := by
  have hseqOrdered := h.toSeqOrdered.write ok history
  obtain ⟨⟨value, hmem⟩, himm, hlevels, -, hseq, -⟩ := Store.writeImpl_fields ok
  refine ⟨hseqOrdered, ?_, ?_, ?_, ?_, ?_, ?_, ?_⟩
  · simp only [hseq]
    omega
  · simp only [hmem]
    refine sorted_insertEntry h.mem fun d hd heq => ?_
    have hlt := h.below d (.inl hd)
    rw [heq, InternalKey.seq_ofWrite] at hlt
    exact lt_irrefl _ hlt
  · simpa only [himm] using h.imm
  · simpa only [hlevels] using h.tables
  · simpa only [hlevels] using h.distinct
  · simpa only [hlevels] using h.level
  · simpa only [hlevels] using h.cross

theorem handOver (h : VersionsOrdered m) {s : Store} (ok : m.store.handOver = .ok s) :
    VersionsOrdered { m with store := s } := by
  have hseqOrdered := h.toSeqOrdered.handOver ok
  obtain ⟨-, rfl⟩ := Store.handOver_cases ok
  refine ⟨hseqOrdered, h.small, List.Pairwise.nil, fun imm himm => ?_, h.tables, h.distinct,
    h.level, h.cross⟩
  rw [← Option.some.inj himm]
  exact h.mem

theorem flush (h : VersionsOrdered m) {s : Store} {imm : MemTable} (idle : m.flushed = false)
    (full : m.store.imm = some imm) (ok : m.store.writeLevel0Table imm = .ok s) :
    VersionsOrdered { m with store := s, flushed := true } := by
  have hseqOrdered := h.toSeqOrdered.flush idle full ok
  obtain ⟨e₀, es, hentries, rfl⟩ := Store.writeLevel0Table_cases ok
  have hmem := fun {f : SSTFile VLogEntryInfo} {i : ℕ} => mem_levelAt_flush h.numbered
    (t := ⟨m.store.fileno, e₀.key, ((e₀ :: es).getLast (List.cons_ne_nil _ _)).key, 0, e₀ :: es⟩)
    (f := f) (i := i) rfl
  have hpos : ∀ {i : ℕ}, 1 ≤ i → levelAt (setLevel m.store.levels 0 (emplace
      ⟨m.store.fileno, e₀.key, ((e₀ :: es).getLast (List.cons_ne_nil _ _)).key, 0, e₀ :: es⟩
      (levelAt m.store.levels 0))) i = levelAt m.store.levels i := by
    intro i hi
    rw [levelAt_setLevel, if_neg (by omega)]
  -- The flushed keys are newer than every key of a table.
  have hnew : ∀ i, ∀ f ∈ levelAt m.store.levels i, ∀ d ∈ f.entries, ∀ e ∈ imm.entries,
      d.key ≠ e.key := by
    intro i f hf d hd e he heq
    rcases h.imm_levels imm full i f hf with hown | hlt
    · exact absurd hown.1 (by simp [idle])
    · exact absurd (hlt e he d hd) (by rw [heq]; exact lt_irrefl _)
  refine ⟨hseqOrdered, h.small, h.mem, h.imm, fun i f hf => ?_, fun i j f hf g hg d hd e he heq => ?_,
    fun i hi => ?_, fun i j hi hij => ?_⟩
  · rcases hmem.mp hf with ⟨-, rfl⟩ | hf
    · have hsorted := h.imm imm full
      rwa [hentries] at hsorted
    · exact h.tables i f hf
  · rcases hmem.mp hf with ⟨hi, hft⟩ | hf
    · rcases hmem.mp hg with ⟨hj, hgt⟩ | hg
      · exact ⟨hi.trans hj.symm, hft.trans hgt.symm⟩
      · rw [hft] at hd
        exact absurd heq.symm (hnew j g hg e he d (hentries ▸ hd))
    · rcases hmem.mp hg with ⟨-, hgt⟩ | hg
      · rw [hgt] at he
        exact absurd heq (hnew i f hf d hd e (hentries ▸ he))
      · exact h.distinct i j f hf g hg d hd e he heq
  · simpa only [hpos hi] using h.level i hi
  · simpa only [hpos hi, hpos (hi.trans hij.le)] using h.cross i j hi hij

theorem clearImm (h : VersionsOrdered m) :
    VersionsOrdered { m with store := m.store.clearImm, flushed := false } :=
  ⟨h.toSeqOrdered.clearImm, h.small, h.mem, fun imm himm => by simp [Store.clearImm] at himm,
    h.tables, h.distinct, h.level, h.cross⟩

/-- Different tables of a compaction hold different keys. -/
theorem inputs_nodup (h : VersionsOrdered m) {info : CompactInfo VLogEntryInfo}
    (p : Picked m.store.levels m.store.fileno info) : (info.inputs.flatten.map Entry.key).Nodup := by
  have hsub : ∀ f ∈ info.oldFiles ++ info.overlapFiles, ∃ i, f ∈ levelAt m.store.levels i := by
    intro f hf
    rcases p.mem_input hf with hf | hf
    · exact ⟨_, hf⟩
    · exact ⟨_, hf⟩
  have hne : (info.oldFiles ++ info.overlapFiles).Pairwise fun f g => f ≠ g := by
    refine List.pairwise_append.mpr ⟨?_, ?_, fun f hf g hg heq => ?_⟩
    · rw [p.old_eq]
      exact ((h.numbered.ascending _).sublist (List.take_sublist _ _)).imp
        fun hlt heq => by simp [heq] at hlt
    · rw [(pickCompaction_cases p.picked).2.2.2.2]
      exact ((h.numbered.ascending _).sublist List.filter_sublist).imp
        fun hlt heq => by simp [heq] at hlt
    · subst heq
      exact absurd (h.numbered.unique _ _ f (p.mem_old hf) f (p.mem_overlap.mp hg).1 rfl)
        (Nat.succ_ne_self _).symm
  rw [CompactInfo.inputs, List.map_flatten, List.map_map, List.Nodup, List.pairwise_flatten]
  refine ⟨fun keys hkeys => ?_, ?_⟩
  · obtain ⟨f, hf, rfl⟩ := List.mem_map.mp hkeys
    obtain ⟨i, hi⟩ := hsub f hf
    exact (strictlySorted_iff_keys.mp (h.tables i f hi)).imp fun hlt => hlt.ne
  · rw [List.pairwise_map]
    refine hne.imp_of_mem fun {f g} hf hg hfg k hk k' hk' heq => ?_
    obtain ⟨d, hd, rfl⟩ := List.mem_map.mp hk
    obtain ⟨e, he, rfl⟩ := List.mem_map.mp hk'
    obtain ⟨i, hi⟩ := hsub f hf
    obtain ⟨j, hj⟩ := hsub g hg
    exact hfg (h.distinct i j f hi g hj d hd e he heq).2

/-- The tables of a compaction can be merged. -/
theorem inputs_mergeable (h : VersionsOrdered m) {info : CompactInfo VLogEntryInfo}
    (p : Picked m.store.levels m.store.fileno info) (two : 2 ≤ info.inputs.length) :
    Mergeable info.inputs := by
  have htable : ∀ f ∈ info.oldFiles ++ info.overlapFiles, ∃ i, f ∈ levelAt m.store.levels i := by
    intro f hf
    rcases p.mem_input hf with hf | hf
    · exact ⟨_, hf⟩
    · exact ⟨_, hf⟩
  refine ⟨two, fun t ht => ?_, h.inputs_nodup p, fun e he => ?_⟩
  · obtain ⟨f, hf, rfl⟩ := List.mem_map.mp ht
    obtain ⟨i, hi⟩ := htable f hf
    exact h.tables i f hi
  · obtain ⟨f, hf, he⟩ := mem_inputs.mp he
    obtain ⟨i, hi⟩ := htable f hf
    have hlt := h.below e (.inr (.inr ⟨i, f, hi, he⟩))
    have hsmall := h.small
    simp only [InternalKey.seq, kMaxSequenceNumber] at hlt hsmall
    omega

/-- The new tables are sorted, and no key is in two of them. -/
theorem new_sorted (h : VersionsOrdered m) {info : CompactInfo VLogEntryInfo} {live : ℕ}
    {w : VLogWork} {r : CompactionResult} {new : List (SSTFile VLogEntryInfo)}
    (p : Picked m.store.levels m.store.fileno info)
    (hcomp : Compaction crc32c live m.store.fileno w info r new)
    (ordered : ¬ info.Moves → MergeOrdered live info.inputs) :
    (∀ f ∈ new, StrictlySorted f.entries) ∧
      ∀ f ∈ new, ∀ g ∈ new, ∀ d ∈ f.entries, ∀ e ∈ g.entries, d.key = e.key → f = g := by
  cases hcomp with
  | move moves =>
      refine ⟨fun f hf => h.tables _ f (p.mem_old hf), fun f hf g hg d hd e he heq => ?_⟩
      exact (h.distinct _ _ f (p.mem_old hf) g (p.mem_old hg) d hd e he heq).2
  | merge merges b built =>
      have hm := h.inputs_mergeable p (visit_of_built p.old_ne built).1
      have hsorted := (newFiles_sorted_iff hm built).mpr (ordered merges)
      rw [StrictlySorted, List.flatMap_def, List.pairwise_flatten, List.pairwise_map] at hsorted
      refine ⟨fun f hf => hsorted.1 _ (List.mem_map_of_mem hf), fun f hf g hg d hd e he heq => ?_⟩
      obtain ⟨i, hi, rfl⟩ := List.mem_iff_getElem.mp hf
      obtain ⟨j, hj, rfl⟩ := List.mem_iff_getElem.mp hg
      rcases lt_trichotomy i j with hij | rfl | hij
      · exact absurd heq (List.pairwise_iff_getElem.mp hsorted.2 i j hi hj hij d hd e he).ne
      · rfl
      · exact absurd heq.symm (List.pairwise_iff_getElem.mp hsorted.2 j i hj hi hij e he d hd).ne

/-- **A compaction that merges in order and keeps versions together keeps the order.** -/
theorem compact (h : VersionsOrdered m) {s : Store} {level : ℕ} (idle : m.flushed = false)
    (ok : m.store.compactLevel crc32c level = .ok s)
    (ordering : m.Ordering (.compact level)) : VersionsOrdered { m with store := s } := by
  have hseqOrdered := h.toSeqOrdered.compact idle ok
  rcases Store.compactLevel_cases ok h.numbered with
    rfl | ⟨info, r, new, hpick, p, hcomp, hlevels, rfl⟩
  · exact h
  · obtain ⟨hkeys, hmerge⟩ := ordering info hpick
    obtain ⟨hsorted, hdistinct⟩ := h.new_sorted p hcomp hmerge
    have hnew : LevelOrdered new := p.new_ordered hcomp
      (fun hne => h.level _ (Nat.one_le_iff_ne_zero.mpr hne)) (h.inputs_mergeable p) hmerge
    have hmem := fun {f : SSTFile VLogEntryInfo} {j : ℕ} => p.mem_level hcomp (f := f) (j := j)
    -- A key of a new table is not in a table that stays.
    have hclash : ∀ {j f g}, f ∈ new → g ∈ levelAt m.store.levels j →
        (j = info.level → g ∉ info.oldFiles) → (j = info.level + 1 → g ∉ info.overlapFiles) →
        ∀ d ∈ f.entries, ∀ e ∈ g.entries, d.key ≠ e.key := by
      intro j f g hf hg hold hover d hd e he heq
      obtain ⟨k, hk, c, hc, hkey, -⟩ := hcomp.key_from p.old_ne hf hd
      rcases List.mem_append.mp hk with hk | hk
      · obtain ⟨hj, rfl⟩ := h.distinct _ j k (p.mem_old hk) g hg c hc e he (hkey.trans heq)
        exact hold hj.symm hk
      · obtain ⟨hj, rfl⟩ := h.distinct _ j k (p.mem_overlap.mp hk).1 g hg c hc e he (hkey.trans heq)
        exact hover hj.symm hk
    refine ⟨hseqOrdered, h.small, h.mem, h.imm, fun i f hf => ?_,
      fun i j f hf g hg d hd e he heq => ?_, fun i hi => ?_, ?_⟩
    · rcases hmem.mp (hlevels ▸ hf) with ⟨-, hf⟩ | ⟨hf, -⟩
      · exact hsorted f hf
      · exact h.tables i f hf
    · rcases hmem.mp (hlevels ▸ hf) with ⟨hi, hf⟩ | ⟨hf, hfold, hfover⟩
      · rcases hmem.mp (hlevels ▸ hg) with ⟨hj, hg⟩ | ⟨hg, hgold, hgover⟩
        · exact ⟨hi.trans hj.symm, hdistinct f hf g hg d hd e he heq⟩
        · exact absurd heq (hclash hf hg hgold hgover d hd e he)
      · rcases hmem.mp (hlevels ▸ hg) with ⟨hj, hg⟩ | ⟨hg, -, -⟩
        · exact absurd heq.symm (hclash hg hf hfold hfover e he d hd)
        · exact h.distinct i j f hf g hg d hd e he heq
    · simpa only [hlevels] using
        p.levelOrdered hcomp i (h.level i hi) hnew hkeys.next hkeys.overlap
    · have htop : info.level = 0 → ∀ f ∈ info.oldFiles, ∀ j, 1 ≤ j →
          ∀ g ∈ levelAt m.store.levels j, f.Newer g := by
        intro hzero f hf j hj g hg d hd e he _
        have hf := p.mem_old hf
        rw [hzero] at hf
        exact InternalKey.tag_lt_of_seq_lt (h.deeper f hf j hj g hg d hd e he)
      simpa only [hlevels] using p.crossOrdered hcomp h.cross htop hkeys.level

end VersionsOrdered

/-- **Every step that meets the condition keeps the invariant.** -/
theorem VersionsOrdered.step {m m' : Machine} {a : Action} (h : VersionsOrdered m)
    (meets : m.Ordering a) (taken : Machine.Step crc32c m a m') : VersionsOrdered m' := by
  have hquiet : a.Quiet → VersionsOrdered m' :=
    fun hq => h.quiet (taken.quiet hq).1 (h.toSeqOrdered.step taken)
  cases taken with
  | write ok => exact h.write meets ok _
  | handOver ok => exact h.handOver ok
  | flush idle full ok => exact h.flush idle full ok
  | clearImm done => exact h.clearImm
  | compact idle ok => exact h.compact idle ok meets
  | _ => exact hquiet trivial

theorem versionsOrdered_of_reachable {cond : Machine → Action → Prop}
    (ordering : ∀ m a, cond m a → m.Ordering a) {m : Machine}
    (h : Machine.Reachable crc32c cond m) : VersionsOrdered m :=
  h.invariant .init fun hm meets taken => hm.step (ordering _ _ meets) taken

/-! ## The order in which versions are found -/

theorem levelAt_sublist_deepSources (s : Store) {i : ℕ} (hi : 1 ≤ i) :
    ((levelAt s.levels i).map (·.entries)).Sublist s.deepSources := by
  refine List.Sublist.map _ ?_
  by_cases hlt : i < s.levels.length
  · refine List.sublist_flatten_of_mem (List.mem_iff_getElem.mpr ⟨i - 1, ?_, ?_⟩)
    · simp only [List.length_drop]
      omega
    · simp [levelAt, hlt, Nat.sub_add_cancel hi]
  · simp [levelAt, List.getElem?_eq_none (not_lt.mp hlt)]

/-- Two versions of a key, encoded: the older one is smaller. -/
theorem encode_lt_of_version (key : Bytes) :
    (InternalKey.ofWrite key 2 .kTypeValue).encode < (InternalKey.ofWrite key 3 .kTypeValue).encode := by
  have hlt : fixedEncode 8 (InternalKey.ofWrite key 2 .kTypeValue).tag
      < fixedEncode 8 (InternalKey.ofWrite key 3 .kTypeValue).tag := by
    change fixedEncode 8 513 < fixedEncode 8 769
    decide
  exact List.Lex.append_left _ hlt key

/-- Tables of one entry each, of one user key, that are read in order are sorted. -/
theorem sorted_of_inOrder {files : List (SSTFile VLogEntryInfo)}
    (single : ∀ t ∈ files, t.entries.length = 1)
    (nodup : ((files.flatMap (·.entries)).map Entry.key).Nodup) (key : Bytes)
    (keys : ∀ t ∈ files, ∀ e ∈ t.entries, ∃ n, e.key = .ofWrite key n .kTypeValue)
    (order : (files.map (·.entries)).Pairwise NeverOlder) :
    StrictlySorted (files.flatMap (·.entries)) := by
  rw [List.flatMap_def, List.map_flatten, List.map_map, List.Nodup, List.pairwise_flatten,
    List.pairwise_map] at nodup
  rw [List.pairwise_map] at order
  rw [StrictlySorted, List.flatMap_def, List.pairwise_flatten, List.pairwise_map]
  refine ⟨fun l hl => ?_, (nodup.2.and order).imp_of_mem fun {f g} hf hg hfg d hd e he => ?_⟩
  · obtain ⟨f, hf, rfl⟩ := List.mem_map.mp hl
    obtain ⟨e, he⟩ := List.length_eq_one_iff.mp (single f hf)
    rw [he]
    exact List.pairwise_singleton _ _
  · obtain ⟨hne, hold⟩ := hfg
    obtain ⟨n, hn⟩ := keys f hf d hd
    obtain ⟨k, hk⟩ := keys g hg e he
    have huser : d.key.userKey = e.key.userKey := by rw [hn, hk]; rfl
    obtain ⟨x, hx, -, hle⟩ := hold e he d hd huser
    obtain rfl : x = d := by
      obtain ⟨c, hc⟩ := List.length_eq_one_iff.mp (single f hf)
      rw [hc, List.mem_singleton] at hx hd
      rw [hx, hd]
    have hkey : x.key ≠ e.key := hne _ (List.mem_map_of_mem hd) _ (List.mem_map_of_mem he)
    simp only [hn, hk, InternalKey.seq_ofWrite] at hle
    rw [hn, hk] at hkey ⊢
    have hlt : k < n := lt_of_le_of_ne hle fun heq => hkey (by rw [heq])
    refine InternalKey.lt_iff.mpr (.inr ⟨rfl, ?_⟩)
    simp only [InternalKey.ofWrite]
    omega

/-- A merge of four versions of a long user key, one in each table, does not leave them in the
order they are read. -/
theorem not_sorted_of_versions {live fileno : ℕ} {w : VLogWork} {info : CompactInfo VLogEntryInfo}
    {r : CompactionResult} {new : List (SSTFile VLogEntryInfo)} (ne : info.oldFiles ≠ [])
    (comp : Compaction crc32c live fileno w info r new) (merges : ¬ info.Moves) (zero : live = 0)
    {key : Bytes} (long : sstFileSize ≤ key.length)
    (keys : info.inputs.map (List.map Entry.key)
      = (List.range 4).map fun n => [InternalKey.ofWrite key n .kTypeValue]) :
    ¬ (new.map (·.entries)).Pairwise NeverOlder := by
  intro order
  subst zero
  cases comp with
  | move moves => exact merges moves
  | merge _ b built =>
      obtain ⟨htwo, visited, hvisit, hperm⟩ := visit_of_built ne built
      have hflat : info.inputs.flatten.map Entry.key
          = (List.range 4).map fun n => InternalKey.ofWrite key n .kTypeValue := by
        rw [List.map_flatten, keys]
        rfl
      have hmem : ∀ e ∈ info.inputs.flatten, ∃ n < 4, e.key = .ofWrite key n .kTypeValue := by
        intro e he
        have hkey : e.key ∈ info.inputs.flatten.map Entry.key := List.mem_map_of_mem he
        rw [hflat] at hkey
        obtain ⟨n, hn, heq⟩ := List.mem_map.mp hkey
        exact ⟨n, List.mem_range.mp hn, heq.symm⟩
      have hnodup : (info.inputs.flatten.map Entry.key).Nodup := by
        rw [hflat]
        refine List.nodup_range.map fun i j hij => ?_
        simpa using congrArg InternalKey.seq hij
      have hat : ∀ {n}, n < 4 → ∃ e, info.inputs.getD n [] = [e] ∧
          e.key = .ofWrite key n .kTypeValue := by
        intro n hn
        have h := congrArg (fun l => l[n]?) keys
        simp only [List.getElem?_map, List.getElem?_range hn, Option.map_some] at h
        obtain ⟨t, ht, htkeys⟩ := Option.map_eq_some_iff.mp h
        have hlen := congrArg List.length htkeys
        simp only [List.length_singleton, List.length_map] at hlen
        obtain ⟨e, rfl⟩ := List.length_eq_one_iff.mp hlen
        refine ⟨e, by rw [List.getD_eq_getElem?_getD, ht, Option.getD_some], ?_⟩
        simpa using htkeys
      have hmergeable : Mergeable info.inputs := by
        refine ⟨htwo, fun t ht => ?_, hnodup, fun e he => ?_⟩
        · have htkeys : t.map Entry.key ∈ info.inputs.map (List.map Entry.key) :=
            List.mem_map_of_mem ht
          rw [keys] at htkeys
          obtain ⟨n, -, heq⟩ := List.mem_map.mp htkeys
          have hlen := congrArg List.length heq
          simp only [List.length_singleton, List.length_map] at hlen
          obtain ⟨e, rfl⟩ := List.length_eq_one_iff.mp hlen.symm
          exact List.pairwise_singleton _ _
        · obtain ⟨n, hn, hkey⟩ := hmem e he
          simp only [hkey, InternalKey.ofWrite, ValueType.code]
          omega
      have hwritten := buildWhenCompaction_keys hvisit built
      have hsorted : StrictlySorted (b.newFiles.flatMap (·.entries)) := by
        refine sorted_of_inOrder ?_ ?_ key (fun t ht e he => ?_) order
        · refine buildWhenCompaction_single hvisit (fun e he _ => ?_) built
          obtain ⟨n, -, hkey⟩ := hmem e (hperm.mem_iff.mp he)
          rw [hkey]
          exact long
        · rw [hwritten]
          exact ((hperm.map Entry.key).nodup_iff.mpr hnodup).sublist
            (List.filter_sublist.map Entry.key)
        · have hkey : e.key ∈ (b.newFiles.flatMap (·.entries)).map Entry.key :=
            List.mem_map_of_mem (List.mem_flatMap.mpr ⟨t, ht, he⟩)
          rw [hwritten] at hkey
          obtain ⟨d, hd, heq⟩ := List.mem_map.mp hkey
          obtain ⟨n, -, hn⟩ := hmem d (hperm.mem_iff.mp (List.mem_filter.mp hd).1)
          exact ⟨n, heq ▸ hn⟩
      -- In comparator order version 3 comes before version 2; encoded it is the larger one.
      have hmerge := (newFiles_sorted_iff hmergeable built).mp hsorted
      obtain ⟨a, ha, hakey⟩ := hat (show 3 < 4 by decide)
      obtain ⟨c, hc, hckey⟩ := hat (show 2 < 4 by decide)
      have hlt : a.key < c.key := by
        rw [hakey, hckey]
        exact InternalKey.lt_iff.mpr (.inr ⟨rfl, by simp [InternalKey.ofWrite]⟩)
      obtain ⟨c', hc', -, hall⟩ := hmerge 3 2 (by decide) a
        (ha ▸ List.mem_singleton_self _) c (hc ▸ List.mem_singleton_self _) (Nat.zero_le _) (Nat.zero_le _) hlt
      rw [hc, List.mem_singleton] at hc'
      have henc := hall a (ha ▸ List.mem_singleton_self _) le_rfl
      simp only [hc', hakey, hckey] at henc
      exact lt_asymm henc (encode_lt_of_version key)

/-- Four writes of one long key, each flushed, and a compaction: level 1 gets a table for each
version, the oldest in the smallest number. -/
theorem exists_stale_level1 (crc32c : Bytes → ℕ) (key value : Bytes) (long : sstFileSize ≤ key.length)
    (short : key.length ≤ keptKeyLength) (fits : Write.Fits ⟨key, .kTypeValue, value⟩) :
    ∃ m, Machine.Reachable crc32c Machine.Regular m ∧ m.Resting ∧
      m.history = List.replicate 4 ⟨key, .kTypeValue, value⟩ ∧ m.store.lastLivingSequence = 0 ∧
      levelAt m.store.levels 0 = [] ∧ ¬ m.store.deepSources.Pairwise NeverOlder := by
  have hfills : ∀ w ∈ List.replicate 4 (Write.mk key .kTypeValue value), Machine.Fills w := by
    intro w hw
    rw [List.eq_of_mem_replicate hw]
    exact .of_long long short fits
  obtain ⟨m, hreach, hrest, hhist, hlive, hfileno, htasks, hdeep, hlen, htables⟩ :=
    Machine.exists_filled crc32c (List.replicate 4 ⟨key, .kTypeValue, value⟩) le_rfl hfills
  have hcount := congrArg List.length htables
  simp only [List.length_map, List.length_zipIdx, List.length_replicate] at hcount
  have hordered := seqOrdered_of_reachable hreach
  obtain ⟨info, r, new, p, hzero, hold, hcomp, hlevels, hrun⟩ :=
    hrest.compactLevel0 crc32c hordered.numbered hcount.ge
      (hreach.fitting_compact (fun w hw => (hfills w (hhist ▸ hw)).short) 0)
  refine ⟨_, hreach.run hrun, ⟨hrest.mem, hrest.imm, hrest.idle⟩, hhist, hlive, ?_, fun horder => ?_⟩
  · refine List.eq_nil_iff_forall_not_mem.mpr fun f hf => ?_
    rw [hlevels] at hf
    exact p.level0_empty hcomp hzero f hf
  · have hover : info.overlapFiles = [] := by
      refine List.eq_nil_iff_forall_not_mem.mpr fun f hf => ?_
      have hmem := (p.mem_overlap.mp hf).1
      rw [hzero, hdeep 1 le_rfl] at hmem
      simp at hmem
    have hnew : levelAt (m.store.compacted r).levels 1 = new := by
      rw [hlevels, levelAt_replaceFiles, hzero, if_pos rfl, hover, hdeep 1 le_rfl]
      exact addFiles_nil (p.numbers hcomp).2.1
    have hpair : (new.map (·.entries)).Pairwise NeverOlder := by
      have hsub := levelAt_sublist_deepSources (m.store.compacted r) le_rfl
      rw [hnew] at hsub
      exact horder.sublist hsub
    have hkeys : info.inputs.map (List.map Entry.key)
        = (List.range 4).map fun n => [InternalKey.ofWrite key n .kTypeValue] := by
      have h := congrArg (List.map fun t : SSTFile Unit => t.entries.map Entry.key) htables
      rw [CompactInfo.inputs, hold, hover, List.append_nil]
      simpa [SSTFile.view, Function.comp_def, Entry.view, Machine.oneEntry, List.replicate,
        List.range_succ] using h
    exact not_sorted_of_versions p.old_ne hcomp (by simp [CompactInfo.Moves, hzero]) hlive long hkeys hpair

end Lsmkv
