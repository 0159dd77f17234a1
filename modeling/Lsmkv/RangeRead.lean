import Lsmkv.Expiry
import Lsmkv.Scan

/-!
# What a scan returns

A scan should return, in ascending order of the keys, the pairs of the keys in its range whose
last write is a `put` (`Machine.ScanAnswers`).  Three things stand in the way.

The range iteration of a table reads the blocks between the first index key that is not below
the range and the first one above it, and where these are the same it reads the first block of
the table, whatever that holds; `SSTFile.Seeks` says that nothing is missed.  `cache[0]` is read
also when there is no level.  And a deletion is collected like a value: its record has no
location, and what the loop of `scan` makes of the bytes is never what it should be
(`resolveList_ne_nil`).  In orderly runs and ranges without these the scan is right
(`scan_answers`).
-/

namespace Lsmkv

open ByteCode Files

variable {crc32c : Bytes → ℕ}

/-! ## The range iteration of a table -/

/-- Blocks under their index keys, in order: an index key is not before the entries of its block,
and before all entries behind it. -/
structure Indexed {β : Type} (index : List (InternalKey × List (Entry β))) : Prop where
  bound : ∀ p ∈ index, ∀ e ∈ p.2, e.key ≤ p.1
  ahead : index.Pairwise fun p p' => ∀ e ∈ p'.2, p.1 < e.key

section Index

variable {β : Type}

theorem length_indexKeys (largest : InternalKey) (blocks : List (List (Entry β))) :
    (indexKeys largest blocks).length = blocks.length := by
  induction blocks with
  | nil => rfl
  | cons blk blocks ih =>
      cases blocks with
      | nil => rfl
      | cons blk' blocks => simpa [indexKeys] using ih

theorem indexed_zip {largest : InternalKey} {blocks : List (List (Entry β))}
    (nonempty : ∀ blk ∈ blocks, blk ≠ []) (sorted : StrictlySorted blocks.flatten)
    (bound : ∀ e ∈ blocks.flatten, e.key ≤ largest) :
    Indexed ((indexKeys largest blocks).zip blocks) := by
  induction blocks with
  | nil => exact ⟨by simp [indexKeys], by simp [indexKeys]⟩
  | cons blk blocks ih =>
      have hflat := sorted
      rw [List.flatten_cons, StrictlySorted, List.pairwise_append] at hflat
      cases blocks with
      | nil =>
          refine ⟨fun p hp e he => ?_, by simp [indexKeys]⟩
          obtain rfl : p = (largest, blk) := by simpa [indexKeys] using hp
          exact bound e (by simpa using he)
      | cons blk' blocks =>
          obtain ⟨hbound, hahead⟩ := ih (fun b hb => nonempty b (List.mem_cons_of_mem _ hb)) hflat.2.1
            fun e he => bound e (by rw [List.flatten_cons]; exact List.mem_append_right _ he)
          obtain ⟨e, hlast⟩ : ∃ e, blk.getLast? = some e :=
            ⟨_, List.getLast?_eq_getLast_of_ne_nil (nonempty blk List.mem_cons_self)⟩
          have hzip : (indexKeys largest (blk :: blk' :: blocks)).zip (blk :: blk' :: blocks)
              = (e.key, blk) :: (indexKeys largest (blk' :: blocks)).zip (blk' :: blocks) := by
            rw [indexKeys, hlast]
            rfl
          rw [hzip]
          refine ⟨fun p hp d hd => ?_, List.pairwise_cons.mpr ⟨fun p hp d hd => ?_, hahead⟩⟩
          · rcases List.mem_cons.mp hp with rfl | hp
            · obtain ⟨init, rfl⟩ := List.getLast?_eq_some_iff.mp hlast
              rcases List.mem_append.mp hd with hd | hd
              · exact ((List.pairwise_append.mp hflat.1).2.2 d hd e (by simp)).le
              · rw [List.mem_singleton.mp hd]
            · exact hbound p hp d hd
          · exact hflat.2.2 e (List.mem_of_getLast? hlast) d
              (List.mem_flatten.mpr ⟨p.2, (List.of_mem_zip hp).2, hd⟩)

/-- The entries of blocks under their index keys. -/
def indexEntriesOf (index : List (InternalKey × List (Entry β))) : List (Entry β) :=
  (index.map Prod.snd).flatten

theorem indexEntriesOf_append (a b : List (InternalKey × List (Entry β))) :
    indexEntriesOf (a ++ b) = indexEntriesOf a ++ indexEntriesOf b := by
  simp [indexEntriesOf]

theorem lookup_indexEntriesOf_eq_none {index : List (InternalKey × List (Entry β))} {u : Bytes}
    (h : ∀ p ∈ index, ∀ e ∈ p.2, e.key.userKey ≠ u) : lookup (indexEntriesOf index) u = none := by
  refine lookup_eq_none.mpr fun e he => ?_
  obtain ⟨blk, hblk, he⟩ := List.mem_flatten.mp he
  obtain ⟨p, hp, rfl⟩ := List.mem_map.mp hblk
  exact h p hp e he

/-- The range of a sorted list holds what the list holds of its user keys. -/
theorem lookup_rangeOf {es : List (Entry β)} (sorted : StrictlySorted es) {k1 k2 u : Bytes}
    (le : k1 ≤ u) (le' : u ≤ k2) :
    lookup ((es.dropWhile fun e => decide (e.key.userKey < k1)).takeWhile
      fun e => decide (e.key.userKey ≤ k2)) u = lookup es u := by
  set low := es.takeWhile fun e => decide (e.key.userKey < k1)
  set rest := es.dropWhile fun e => decide (e.key.userKey < k1)
  have hsplit : es = low ++ rest := (List.takeWhile_append_dropWhile).symm
  have hlow : lookup low u = none := by
    refine lookup_eq_none.mpr fun e he hu => ?_
    have hlt : e.key.userKey < k1 := by simpa using List.mem_takeWhile_imp he
    exact absurd (hu ▸ hlt) (not_lt.mpr le)
  have hrest : rest = rest.takeWhile (fun e => decide (e.key.userKey ≤ k2))
      ++ rest.dropWhile fun e => decide (e.key.userKey ≤ k2) :=
    (List.takeWhile_append_dropWhile).symm
  have hhigh : lookup (rest.dropWhile fun e => decide (e.key.userKey ≤ k2)) u = none := by
    have hsorted : StrictlySorted rest := sorted.sublist (List.dropWhile_sublist _)
    cases hdrop : rest.dropWhile fun e => decide (e.key.userKey ≤ k2) with
    | nil => rfl
    | cons d ds =>
        have hd : k2 < d.key.userKey := by
          have hhead := List.head?_dropWhile_not (fun e => decide (e.key.userKey ≤ k2)) rest
          rw [hdrop] at hhead
          simpa using hhead
        have hds := hsorted.sublist (List.dropWhile_sublist fun e => decide (e.key.userKey ≤ k2))
        rw [hdrop] at hds
        refine lookup_eq_none.mpr fun e he hu => ?_
        have hle : d.key.userKey ≤ e.key.userKey := by
          rcases List.mem_cons.mp he with rfl | he
          · exact le_rfl
          · exact InternalKey.userKey_le_of_le ((List.pairwise_cons.mp hds).1 e he).le
        exact absurd (hd.trans_le (hu ▸ hle)) (not_lt.mpr le')
  calc lookup (rest.takeWhile fun e => decide (e.key.userKey ≤ k2)) u
      = lookup rest u := by
        conv_rhs => rw [hrest]
        rw [lookup_append, hhigh, Option.or_none]
    _ = lookup es u := by rw [hsplit, lookup_append, hlow, Option.none_or]

/-- The range of a list lies within its bounds. -/
theorem mem_rangeOf {es : List (Entry β)} (sorted : StrictlySorted es) {k1 k2 : Bytes} {e : Entry β}
    (mem : e ∈ (es.dropWhile fun e => decide (e.key.userKey < k1)).takeWhile
      fun e => decide (e.key.userKey ≤ k2)) : k1 ≤ e.key.userKey ∧ e.key.userKey ≤ k2 := by
  refine ⟨?_, by simpa using List.mem_takeWhile_imp mem⟩
  have mem := (List.takeWhile_sublist _).subset mem
  cases hdrop : es.dropWhile fun e => decide (e.key.userKey < k1) with
  | nil => simp [hdrop] at mem
  | cons d ds =>
      have hd : k1 ≤ d.key.userKey := by
        have hhead := List.head?_dropWhile_not (fun e => decide (e.key.userKey < k1)) es
        rw [hdrop] at hhead
        simpa using hhead
      have hds := sorted.sublist (List.dropWhile_sublist fun e => decide (e.key.userKey < k1))
      rw [hdrop] at mem hds
      rcases List.mem_cons.mp mem with rfl | mem
      · exact hd
      · exact hd.trans (InternalKey.userKey_le_of_le ((List.pairwise_cons.mp hds).1 e mem).le)

/-- The blocks that a range iteration reads. -/
def readBlocks (index : List (InternalKey × List (Entry β))) (k1 k2 : Bytes) :
    List (InternalKey × List (Entry β)) :=
  let cur := index.dropWhile fun p => decide (p.1.userKey < k1)
  let count := (cur.takeWhile fun p => decide (p.1.userKey ≤ k2)).length
  if count = 0 then index.take 1 else cur.take (count + 1)

/-- An index leads a range iteration to all entries of the range: an index key lies in the range,
or no block but the first has an entry of it. -/
def LeadsTo (index : List (InternalKey × List (Entry β))) (k1 k2 : Bytes) : Prop :=
  (∃ p ∈ index, k1 ≤ p.1.userKey ∧ p.1.userKey ≤ k2) ∨
    ∀ p ∈ index.drop 1, ∀ e ∈ p.2, ¬ (k1 ≤ e.key.userKey ∧ e.key.userKey ≤ k2)

/-- **The blocks that are read hold all entries of the range.** -/
theorem lookup_readBlocks {index : List (InternalKey × List (Entry β))} (indexed : Indexed index)
    (nonempty : ∀ p ∈ index, p.2 ≠ []) {k1 k2 u : Bytes} (leads : LeadsTo index k1 k2)
    (le : k1 ≤ u) (le' : u ≤ k2) :
    lookup (indexEntriesOf (readBlocks index k1 k2)) u = lookup (indexEntriesOf index) u := by
  set pre := index.takeWhile fun p => decide (p.1.userKey < k1)
  set cur := index.dropWhile fun p => decide (p.1.userKey < k1) with hcur
  have hsplit : index = pre ++ cur := (List.takeWhile_append_dropWhile).symm
  have hpre_lt : ∀ p ∈ pre, p.1.userKey < k1 := fun p hp => by
    simpa using List.mem_takeWhile_imp hp
  -- Blocks whose index key is below the range hold nothing of it.
  have hpre : lookup (indexEntriesOf pre) u = none := by
    refine lookup_indexEntriesOf_eq_none fun p hp e he hu => ?_
    have hmem : p ∈ index := by rw [hsplit]; exact List.mem_append_left _ hp
    have hle := InternalKey.userKey_le_of_le (indexed.bound p hmem e he)
    exact absurd (hle.trans_lt (hpre_lt p hp)) (not_lt.mpr (hu ▸ le))
  set taken := cur.takeWhile fun p => decide (p.1.userKey ≤ k2)
  set rest := cur.dropWhile fun p => decide (p.1.userKey ≤ k2) with hrest
  have hcut : cur = taken ++ rest := (List.takeWhile_append_dropWhile).symm
  have hahead : rest.Pairwise fun p p' => ∀ e ∈ p'.2, p.1 < e.key := by
    have htail := (List.pairwise_append.mp (hsplit ▸ indexed.ahead)).2.1
    exact (List.pairwise_append.mp (hcut ▸ htail)).2.1
  have hhead : ∀ p ps, rest = p :: ps → k2 < p.1.userKey := by
    intro p ps hp
    have hdrop := List.head?_dropWhile_not (fun p => decide (p.1.userKey ≤ k2)) cur
    rw [← hrest, hp] at hdrop
    simpa using hdrop
  have hread : readBlocks index k1 k2
      = if taken.length = 0 then index.take 1 else cur.take (taken.length + 1) := rfl
  by_cases hcount : taken.length = 0
  · -- The range has no index key, so what it holds is in the first block.
    have htaken : taken = [] := List.length_eq_zero_iff.mp hcount
    rw [hread, if_pos hcount]
    have hnokey : ¬ ∃ p ∈ index, k1 ≤ p.1.userKey ∧ p.1.userKey ≤ k2 := by
      rintro ⟨p, hp, hge, hle⟩
      rw [hsplit, hcut, htaken, List.nil_append] at hp
      rcases List.mem_append.mp hp with hp | hp
      · exact absurd (hpre_lt p hp) (not_lt.mpr hge)
      · cases hr : rest with
        | nil => simp [hr] at hp
        | cons p₀ ps =>
            rw [hr] at hp hahead
            have hlt := hhead p₀ ps hr
            rcases List.mem_cons.mp hp with rfl | hps
            · exact absurd hlt (not_lt.mpr hle)
            · have hmem : p ∈ index := by
                rw [hsplit, hcut, hr]
                exact List.mem_append_right _ (List.mem_append_right _ hp)
              obtain ⟨e, he⟩ := List.exists_mem_of_ne_nil _ (nonempty p hmem)
              have hkey := InternalKey.userKey_le_of_le
                (((List.pairwise_cons.mp hahead).1 p hps e he).le.trans (indexed.bound p hmem e he))
              exact absurd (hlt.trans_le hkey) (not_lt.mpr hle)
    have hfirst := leads.resolve_left hnokey
    have hone : index = index.take 1 ++ index.drop 1 := (List.take_append_drop 1 index).symm
    have hnone : lookup (indexEntriesOf (index.drop 1)) u = none :=
      lookup_indexEntriesOf_eq_none fun p hp e he hu => hfirst p hp e he ⟨hu ▸ le, hu ▸ le'⟩
    conv_rhs => rw [hone]
    rw [indexEntriesOf_append, lookup_append, hnone, Option.or_none]
  · rw [hread, if_neg hcount]
    have htake : cur.take (taken.length + 1) = taken ++ rest.take 1 := by
      conv_lhs => rw [hcut]
      rw [List.take_length_add_append]
    -- Behind the first index key above the range everything is above it.
    have hnone : lookup (indexEntriesOf (rest.drop 1)) u = none := by
      refine lookup_indexEntriesOf_eq_none fun p hp e he hu => ?_
      cases hr : rest with
      | nil => simp [hr] at hp
      | cons p₀ ps =>
          rw [hr] at hp hahead
          have hlt := (List.pairwise_cons.mp hahead).1 p hp e he
          have hle := InternalKey.userKey_le_of_le hlt.le
          exact absurd ((hhead p₀ ps hr).trans_le (hu ▸ hle)) (not_lt.mpr le')
    have hindex : index = pre ++ (taken ++ (rest.take 1 ++ rest.drop 1)) := by
      rw [List.take_append_drop, ← hcut, ← hsplit]
    conv_rhs => rw [hindex]
    simp only [htake, indexEntriesOf_append, lookup_append, hpre, hnone, Option.none_or,
      Option.or_none]

end Index

/-- The index of a table leads to the entries of a range. -/
def SSTFile.Seeks (f : SSTFile VLogEntryInfo) (k1 k2 : Bytes) : Prop :=
  LeadsTo ((indexKeys f.largest (tableBlocks f.entries)).zip (tableBlocks f.entries)) k1 k2

section Table

variable {sstFiles : ℕ → Bool} {f : SSTFile VLogEntryInfo} {k1 k2 u : Bytes}

theorem SSTFile.range_eq (present : sstFiles f.fileNumber = true) (k1 k2 : Bytes) :
    f.range sstFiles k1 k2 = ((indexEntriesOf (readBlocks
      ((indexKeys f.largest (tableBlocks f.entries)).zip (tableBlocks f.entries)) k1 k2)).dropWhile
        fun e => decide (e.key.userKey < k1)).takeWhile fun e => decide (e.key.userKey ≤ k2) := by
  have hsnd : ((indexKeys f.largest (tableBlocks f.entries)).zip (tableBlocks f.entries)).map Prod.snd
      = tableBlocks f.entries :=
    List.map_snd_zip (by rw [length_indexKeys])
  simp only [SSTFile.range, present, if_true, indexEntriesOf, readBlocks]
  split
  · rw [List.map_take, hsnd]
  · rfl

theorem readBlocks_sublist {β : Type} (index : List (InternalKey × List (Entry β))) (k1 k2 : Bytes) :
    (readBlocks index k1 k2).Sublist index := by
  rw [readBlocks]
  split
  · exact List.take_sublist _ _
  · exact (List.take_sublist _ _).trans (List.dropWhile_sublist _)

theorem indexEntriesOf_zip {β : Type} (largest : InternalKey) (blocks : List (List (Entry β))) :
    indexEntriesOf ((indexKeys largest blocks).zip blocks) = blocks.flatten := by
  rw [indexEntriesOf, List.map_snd_zip (by rw [length_indexKeys])]

theorem sorted_readBlocks (sorted : StrictlySorted f.entries) (k1 k2 : Bytes) :
    StrictlySorted (indexEntriesOf (readBlocks
      ((indexKeys f.largest (tableBlocks f.entries)).zip (tableBlocks f.entries)) k1 k2)) := by
  have hflat := indexEntriesOf_zip f.largest (tableBlocks f.entries)
  rw [flatten_tableBlocks] at hflat
  rw [← hflat] at sorted
  exact sorted.sublist (((readBlocks_sublist _ k1 k2).map Prod.snd).flatten)

/-- **A range iteration of a table finds the newest versions of its range**, where the index
leads to them. -/
theorem SSTFile.lookup_range (present : sstFiles f.fileNumber = true)
    (sorted : StrictlySorted f.entries) (covers : f.Covers) (seeks : f.Seeks k1 k2)
    (le : k1 ≤ u) (le' : u ≤ k2) : lookup (f.range sstFiles k1 k2) u = lookup f.entries u := by
  have hflat : (tableBlocks f.entries).flatten = f.entries := flatten_tableBlocks f.entries
  have hindexed : Indexed ((indexKeys f.largest (tableBlocks f.entries)).zip (tableBlocks f.entries)) :=
    indexed_zip (tableBlocks_nonempty _) (by rwa [hflat])
      (by rw [hflat]; exact fun e he => (covers e he).2)
  rw [SSTFile.range_eq present, lookup_rangeOf (sorted_readBlocks sorted k1 k2) le le',
    lookup_readBlocks hindexed
      (fun p hp => tableBlocks_nonempty _ p.2 (List.of_mem_zip hp).2) seeks le le',
    indexEntriesOf_zip, hflat]

theorem SSTFile.mem_range (sorted : StrictlySorted f.entries) {e : Entry VLogEntryInfo}
    (mem : e ∈ f.range sstFiles k1 k2) : k1 ≤ e.key.userKey ∧ e.key.userKey ≤ k2 := by
  by_cases present : sstFiles f.fileNumber = true
  · rw [SSTFile.range_eq present] at mem
    exact mem_rangeOf (sorted_readBlocks sorted k1 k2) mem
  · simp [SSTFile.range, present] at mem

end Table

/-! ## What is collected in an orderly run -/

theorem findSome?_congr_mem {α β : Type} {l : List α} {f g : α → Option β}
    (h : ∀ a ∈ l, f a = g a) : l.findSome? f = l.findSome? g := by
  induction l with
  | nil => rfl
  | cons a l ih =>
      rw [List.findSome?_cons, List.findSome?_cons, h a List.mem_cons_self,
        ih fun b hb => h b (List.mem_cons_of_mem _ hb)]

theorem visible_eq_lookup {es : List (Entry VLogEntryInfo)} {q : ℕ} (u : Bytes)
    (newer : ∀ e ∈ es, e.key.seq < q) : visible es q u = lookup es u :=
  List.find?_congr fun e he => by simp [(newer e he).le]

namespace Intact

variable {m : Machine} {k1 k2 u : Bytes} {keyMap : KeyMap}

theorem tagsWritten (h : Intact crc32c m) {es : List (Entry VLogEntryInfo)}
    (held : ∀ e ∈ es, m.store.Holds e) : TagsWritten es := by
  intro e he
  obtain ⟨w, -, hkey⟩ := h.account.sound e (held e he)
  rw [hkey, InternalKey.seq_ofWrite, InternalKey.type_ofWrite]
  rfl

/-- The memtable and the immutable memtable yield their newest versions. -/
theorem visible_memRange (h : Intact crc32c m) {t : MemTable} (sorted : StrictlySorted t.entries)
    (held : ∀ e ∈ t.entries, m.store.Holds e) (le : k1 ≤ u) (le' : u ≤ k2) :
    visible (t.range (queryKey m.store.lastSequence k1) (queryKey m.store.lastSequence k2))
      m.store.lastSequence u = lookup t.entries u := by
  have hbelow : ∀ e ∈ t.entries, e.key.seq < m.store.lastSequence :=
    fun e he => h.versions.below e (held e he)
  rw [MemTable.visible_range sorted (h.tagsWritten held)
    (fun e he hseq => absurd hseq (hbelow e he).ne) le le', visible_eq_lookup u hbelow]

/-- The tables yield their newest versions, where their index leads to them. -/
theorem visible_tableRange (h : Intact crc32c m) {i : ℕ} {f : SSTFile VLogEntryInfo}
    (hf : f ∈ levelAt m.store.levels i) (seeks : f.Seeks k1 k2) (le : k1 ≤ u) (le' : u ≤ k2) :
    visible (f.range m.store.sstFiles k1 k2) m.store.lastSequence u = lookup f.entries u := by
  obtain ⟨hpresent, hsorted, hcovers, hnewer⟩ := h.searchable hf
  rw [visible_eq_lookup u fun e he => hnewer e (SSTFile.range_subset _ _ _ _ he),
    SSTFile.lookup_range hpresent hsorted hcovers seeks le le']

/-- **A scan collects the first version of each key of its range.** -/
theorem collect_eq_firstHit (h : Intact crc32c m)
    (seeks : ∀ i, ∀ f ∈ levelAt m.store.levels i, f.Seeks k1 k2)
    (collected : m.store.collect k1 k2 = .ok keyMap) (le : k1 ≤ u) (le' : u ≤ k2) :
    keyMap[u]? = m.store.firstHit u := by
  have hmem := h.visible_memRange h.versions.mem (fun e he => .inl he) le le'
  have himm : (m.store.imm.toList.map fun imm =>
        imm.range (queryKey m.store.lastSequence k1) (queryKey m.store.lastSequence k2)).findSome?
          (fun src => visible src m.store.lastSequence u)
      = (m.store.imm.toList.map (·.entries)).findSome? fun src => lookup src u := by
    rw [List.findSome?_map, List.findSome?_map]
    refine findSome?_congr_mem fun imm himm => ?_
    have himm := Option.mem_toList.mp himm
    exact h.visible_memRange (h.versions.imm imm himm) (fun e he => .inr (.inl ⟨imm, himm, he⟩)) le le'
  have htables : (((levelAt m.store.levels 0).reverse ++ (m.store.levels.drop 1).flatten).map fun f =>
        f.range m.store.sstFiles k1 k2).findSome? (fun src => visible src m.store.lastSequence u)
      = (((levelAt m.store.levels 0).reverse ++ (m.store.levels.drop 1).flatten).map
          (·.entries)).findSome? fun src => lookup src u := by
    rw [List.findSome?_map, List.findSome?_map]
    refine findSome?_congr_mem fun f hf => ?_
    obtain ⟨i, hi⟩ := mem_tables.mp hf
    exact h.visible_tableRange hi (seeks i f hi) le le'
  rw [Store.collect_getElem? collected, Store.scanSources, Store.firstHit, Store.shallowSources,
    Store.deepSources, List.findSome?_cons, hmem, List.findSome?_append, himm, htables]
  simp only [List.cons_append, List.findSome?_cons, List.append_assoc, List.map_append,
    List.findSome?_append]

/-- Nothing outside its range is collected. -/
theorem collect_range (h : Intact crc32c m) (le : k1 ≤ k2)
    (collected : m.store.collect k1 k2 = .ok keyMap) {e : Entry VLogEntryInfo}
    (found : keyMap[u]? = some e) : k1 ≤ u ∧ u ≤ k2 := by
  rw [Store.collect_getElem? collected] at found
  obtain ⟨src, hsrc, hvis⟩ := List.exists_of_findSome?_eq_some found
  obtain ⟨he, rfl, -⟩ := visible_mem hvis
  rcases List.mem_cons.mp hsrc with rfl | hsrc
  · exact MemTable.mem_range h.versions.mem le he
  · rcases List.mem_append.mp hsrc with hsrc | hsrc
    · obtain ⟨imm, himm, rfl⟩ := List.mem_map.mp hsrc
      exact MemTable.mem_range (h.versions.imm imm (Option.mem_toList.mp himm)) le he
    · obtain ⟨f, hf, rfl⟩ := List.mem_map.mp hsrc
      obtain ⟨i, hi⟩ := mem_tables.mp hf
      exact SSTFile.mem_range (h.versions.tables i f hi) he

end Intact

/-! ## The list of a scan -/

namespace Store

variable {s : Store}

/-- Nothing has expired where no sequence number is below the bound. -/
theorem readValue_ne_expired (live : s.lastLivingSequence = 0) (info : VLogEntryInfo) :
    (s.readValue crc32c info).1 ≠ .fail .kExpired := by
  have hcheck : ∀ key value, expiryCheck (some 0) key value ≠ .fail .kExpired := by
    intro key value h
    obtain ⟨k, -, h⟩ := Outcome.ofOption_bind_eq_fail.mp h
    simp at h
  have hread : ∀ data, vlogRead crc32c (some 0) data info ≠ .fail .kExpired := by
    intro data h
    simp only [vlogRead, checkRecord] at h
    split at h
    · simp at h
    · obtain ⟨keySize, -, h⟩ := Outcome.ofOption_bind_eq_fail.mp h
      obtain ⟨valueSize, -, h⟩ := Outcome.ofOption_bind_eq_fail.mp h
      split at h
      · simp at h
      · obtain ⟨crc, -, h⟩ := Outcome.ofOption_bind_eq_fail.mp h
        split at h
        · simp at h
        · exact hcheck _ _ h
  simp only [Store.readValue, live]
  split
  · exact hread _
  · split
    · simp
    · exact hread _

/-- **The loop of `scan` drops no key when nothing can expire**, deletions included. -/
theorem resolveList_keys (live : s.lastLivingSequence = 0) (status : Code)
    (list : List (Bytes × VLogEntryInfo)) {status' : Code} {out : List (Bytes × Bytes)}
    (h : (s.resolveList crc32c status list).1 = .ok (status', out)) :
    out.map Prod.fst = list.map Prod.fst := by
  induction list generalizing s status status' out with
  | nil =>
      obtain ⟨-, rfl⟩ := Prod.mk.inj (Outcome.ok.inj h)
      rfl
  | cons p list ih =>
      obtain ⟨key, info⟩ := p
      obtain ⟨handles, hstate⟩ := s.readValue_handles crc32c info
      have hexpired : (s.readValue crc32c info).1 ≠ .fail .kExpired := readValue_ne_expired live info
      have hlive : (s.readValue crc32c info).2.lastLivingSequence = 0 := by rw [hstate]; exact live
      rw [Store.resolveList, encode_isEmpty] at h
      simp only [Bool.false_eq_true, if_false] at h
      cases hread : s.readValue crc32c info with
      | mk r s' =>
          rw [hread] at h hexpired hlive
          cases r with
          | ok value =>
              obtain ⟨⟨st, rest⟩, hrest, hout⟩ := Outcome.bind_eq_ok.mp h
              obtain ⟨-, rfl⟩ := Prod.mk.inj (Outcome.ok.inj hout)
              simp [ih hlive .kOk hrest]
          | fail c =>
              have hc : c ≠ .kExpired := fun hc => hexpired (by rw [hc])
              simp only [hc, if_false] at h
              obtain ⟨-, rfl⟩ := Prod.mk.inj (Outcome.ok.inj h)
              simp [Function.comp_def]
          | fault => simp at h

theorem answered_map {l : List (Bytes × Entry VLogEntryInfo)}
    {g : Bytes × Entry VLogEntryInfo → Option Bytes} (h : ∀ p ∈ l, g p ≠ none) :
    answered (l.map fun p => (p.1, p.2.value)) (l.map g) = l.map fun p => (p.1, (g p).getD []) := by
  induction l with
  | nil => rfl
  | cons p l ih =>
      obtain ⟨value, hvalue⟩ := Option.ne_none_iff_exists'.mp (h p List.mem_cons_self)
      simp only [List.map_cons, hvalue, answered, Option.getD_some,
        ih fun q hq => h q (List.mem_cons_of_mem _ hq)]

end Store

/-- **What a scan should return**: success, and in ascending order of the keys the pairs of the
keys in the range whose last write is a `put`. -/
def Machine.ScanAnswers (crc32c : Bytes → ℕ) (m : Machine) (k1 k2 : Bytes) : Prop :=
  ∃ list, (m.store.scan crc32c k1 k2).1 = .ok (.kOk, list) ∧
    list.Pairwise (fun a b => a.1 < b.1) ∧
    ∀ k v, (k, v) ∈ list ↔ k1 ≤ k ∧ k ≤ k2 ∧ ∃ w n, lastWrite m.history k = some (w, n) ∧
      w.type = .kTypeValue ∧ w.value = v

namespace Intact

variable {m : Machine} {k1 k2 : Bytes} {keyMap : KeyMap}

/-- What a scan collects are the last writes of the keys in its range. -/
theorem collect_lastWrite (h : Intact crc32c m) (live : m.store.lastLivingSequence = 0) (le : k1 ≤ k2)
    (seeks : ∀ i, ∀ f ∈ levelAt m.store.levels i, f.Seeks k1 k2)
    (collected : m.store.collect k1 k2 = .ok keyMap) (u : Bytes) :
    (∀ e, keyMap[u]? = some e → k1 ≤ u ∧ u ≤ k2 ∧ ∃ w n, lastWrite m.history u = some (w, n) ∧
      e.key = .ofWrite u n w.type ∧ m.recorded e = some w.value) ∧
    (k1 ≤ u → u ≤ k2 → ∀ w n, lastWrite m.history u = some (w, n) →
      ∃ e, keyMap[u]? = some e ∧ e.key = .ofWrite u n w.type ∧ m.recorded e = some w.value) := by
  have hlast : k1 ≤ u → u ≤ k2 → ∀ w n, lastWrite m.history u = some (w, n) →
      ∃ e, keyMap[u]? = some e ∧ e.key = .ofWrite u n w.type ∧ m.recorded e = some w.value := by
    intro hle hle' w n hw
    obtain ⟨e, hit, hkey⟩ := h.firstHit_of_lastWrite hw (by omega)
    refine ⟨e, (h.collect_eq_firstHit seeks collected hle hle').trans hit, hkey, ?_⟩
    have hn := (lastWrite_eq_some.mp hw).1
    simp [Machine.recorded, live, hkey, hn]
  refine ⟨fun e he => ?_, hlast⟩
  obtain ⟨hle, hle'⟩ := h.collect_range le collected he
  refine ⟨hle, hle', ?_⟩
  cases hw : lastWrite m.history u with
  | none =>
      have hmiss := h.firstHit_eq_none hw
      rw [← h.collect_eq_firstHit seeks collected hle hle', he] at hmiss
      simp at hmiss
  | some p =>
      obtain ⟨e', he', hkey, hrecorded⟩ := hlast hle hle' p.1 p.2 hw
      obtain rfl : e' = e := Option.some.inj (he'.symm.trans he)
      exact ⟨p.1, p.2, rfl, hkey, hrecorded⟩

end Intact

/-- A deletion is collected like a value, and its key is in the list. -/
theorem Machine.ScanAnswers.values {m : Machine} {k1 k2 : Bytes} (answers : m.ScanAnswers crc32c k1 k2)
    (h : Intact crc32c m) (live : m.store.lastLivingSequence = 0) (le : k1 ≤ k2)
    (seeks : ∀ i, ∀ f ∈ levelAt m.store.levels i, f.Seeks k1 k2) :
    ∀ u w n, k1 ≤ u → u ≤ k2 → lastWrite m.history u = some (w, n) → w.type = .kTypeValue := by
  obtain ⟨list, hscan, -, hlist⟩ := answers
  have hlevels : m.store.levels ≠ [] := by
    intro hnil
    simp [Store.scan, Store.collect, hnil, scanLevels] at hscan
  intro u w n hle hle' hw
  obtain ⟨keyMap, hcollect⟩ := Store.collect_isOk hlevels k1 k2
  obtain ⟨e, he, -, -⟩ := (h.collect_lastWrite live le seeks hcollect u).2 hle hle' w n hw
  rw [Store.scan, hcollect] at hscan
  have hkeys := Store.resolveList_keys live .kOk _ hscan
  have hmem : u ∈ list.map Prod.fst := by
    rw [hkeys]
    refine List.mem_map.mpr ⟨(u, e.value), ?_, rfl⟩
    exact List.mem_map.mpr ⟨(u, e), Std.TreeMap.mem_toList_iff_getElem?_eq_some.mpr he, rfl⟩
  obtain ⟨⟨k, v⟩, hkv, rfl⟩ := List.mem_map.mp hmem
  obtain ⟨-, -, w', n', hw', htype, -⟩ := (hlist k v).mp hkv
  obtain ⟨rfl, rfl⟩ : w' = w ∧ n' = n := by simpa using hw'.symm.trans hw
  exact htype

/-- **When a scan returns what it should.**  After every orderly run of `put`s and `del`s, for
every range to whose entries the indexes of the tables lead, the scan is right exactly when the
last write of no key in the range is a `del`. -/
theorem scan_answers_iff {m : Machine} (reached : Machine.Reachable crc32c Machine.Unexpired m)
    {k1 k2 : Bytes} (le : k1 ≤ k2)
    (seeks : ∀ i, ∀ f ∈ levelAt m.store.levels i, f.Seeks k1 k2) :
    m.ScanAnswers crc32c k1 k2 ↔
      ∀ u w n, k1 ≤ u → u ≤ k2 → lastWrite m.history u = some (w, n) → w.type = .kTypeValue := by
  have h : Intact crc32c m := intact_of_reachable (fun _ _ hm => hm.1) reached
  have hlive := Machine.Unexpired.live reached
  constructor
  · exact fun answers => answers.values h hlive le seeks
  · intro hputs
    obtain ⟨keyMap, hcollect⟩ := Store.collect_isOk (levels_ne_of_reachable reached) k1 k2
    have hentry : ∀ p ∈ keyMap.toList, k1 ≤ p.1 ∧ p.1 ≤ k2 ∧ ∃ w n,
        lastWrite m.history p.1 = some (w, n) ∧ p.2.key.type = .kTypeValue ∧
        w.type = .kTypeValue ∧ m.recorded p.2 = some w.value := by
      intro p hp
      obtain ⟨hle, hle', w, n, hw, hkey, hrecorded⟩ :=
        (h.collect_lastWrite hlive le seeks hcollect p.1).1 p.2
          (Std.TreeMap.mem_toList_iff_getElem?_eq_some.mp hp)
      have htype := hputs p.1 w n hle hle' hw
      exact ⟨hle, hle', w, n, hw, by rw [hkey, InternalKey.type_ofWrite, htype], htype, hrecorded⟩
    have hvalues : ∀ p ∈ keyMap.toList, p.2.key.type = .kTypeValue := fun p hp => by
      obtain ⟨-, -, w, n, -, htype, -, -⟩ := hentry p hp
      exact htype
    have hrecorded : ∀ p ∈ keyMap.toList, m.recorded p.2 ≠ none := fun p hp => by
      obtain ⟨-, -, w, n, -, -, -, hr⟩ := hentry p hp
      simp [hr]
    obtain ⟨hreads, hnone⟩ := collected_answers h.durable h.versions.below h.versions.small hcollect
      hvalues
    obtain ⟨status, hres, hok⟩ :=
      Store.resolveList_of_answers hreads h.durable.owned.fresh h.handles .kOk
    have hstatus : status = .kOk := hok (hnone.mpr fun p _ => hlive ▸ Nat.zero_le _) rfl
    rw [hstatus, Store.locations, Store.answered_map hrecorded] at hres
    refine ⟨_, by rw [Store.scan, hcollect]; exact hres, ?_, fun k v => ?_⟩
    · rw [List.pairwise_map]
      exact Std.TreeMap.ordered_keys_toList.imp fun hlt => strCompare_eq_lt.mp hlt
    · constructor
      · intro hmem
        obtain ⟨p, hp, hpair⟩ := List.mem_map.mp hmem
        obtain ⟨rfl, rfl⟩ := Prod.mk.inj hpair
        obtain ⟨hle, hle', w, n, hw, -, htype, hr⟩ := hentry p hp
        exact ⟨hle, hle', w, n, hw, htype, by simp [hr]⟩
      · rintro ⟨hle, hle', w, n, hw, -, rfl⟩
        obtain ⟨e, he, -, hr⟩ := (h.collect_lastWrite hlive le seeks hcollect k).2 hle hle' w n hw
        exact List.mem_map.mpr
          ⟨(k, e), Std.TreeMap.mem_toList_iff_getElem?_eq_some.mpr he, by simp [hr]⟩

/-! ## A value and its deletion -/

/-- Runs of writes and flushes are orderly, as long as the sequence numbers last. -/
theorem Machine.Reachable.unexpired {m : Machine} (h : Machine.Reachable crc32c Machine.Flushing m)
    (len : m.history.length ≤ kMaxSequenceNumber + 1) :
    Machine.Reachable crc32c Machine.Unexpired m := by
  induction h with
  | new => exact .new
  | @step m m' a reached meets taken ih =>
      refine .step (ih (taken.history.length_le.trans len)) ?_ taken
      have hseq := (accounted_of_reachable reached).length
      cases taken with
      | write ok =>
          rw [List.length_append, List.length_singleton] at len
          exact ⟨⟨by rw [Machine.Ordering, hseq]; omega, trivial, meets.1.2⟩, by simp⟩
      | handOver ok => exact ⟨⟨trivial, trivial, trivial⟩, by simp⟩
      | flush idle full ok => exact ⟨⟨trivial, trivial, trivial⟩, by simp⟩
      | clearImm done => exact ⟨⟨trivial, trivial, trivial⟩, by simp⟩
      | _ => exact absurd meets.2 (by simp [Machine.FlushStep])

/-- The index of a table with one entry leads to its key. -/
theorem SSTFile.seeks_singleton {f : SSTFile VLogEntryInfo} {e : Entry VLogEntryInfo}
    (entries : f.entries = [e]) (largest : f.largest = e.key) :
    f.Seeks e.key.userKey e.key.userKey := by
  refine .inl ⟨(e.key, [e]), ?_, le_rfl, le_rfl⟩
  simp [entries, largest, tableBlocks_singleton, indexKeys]

/-- A value in a table is scanned. -/
theorem scan_answers_one_table :
    ∃ m, Machine.Reachable crc32cCastagnoli Machine.Unexpired m ∧
      m.history = [⟨List.replicate 24544 0, .kTypeValue, [9]⟩] ∧
      m.ScanAnswers crc32cCastagnoli (List.replicate 24544 0) (List.replicate 24544 0) := by
  have hfills : Machine.Fills ⟨List.replicate 24544 0, .kTypeValue, [9]⟩ :=
    Machine.fills_replicate 0
  obtain ⟨m, e, keyMap, hreach, -, hhist, -, -, -, -, hkey, htables⟩ :=
    Machine.exists_one_table crc32cCastagnoli hfills
  have hreach := hreach.unexpired (by rw [hhist]; decide)
  refine ⟨m, hreach, hhist, ?_⟩
  refine (scan_answers_iff hreach le_rfl fun i f hf => ?_).mpr fun u w n _ _ hw => ?_
  · obtain ⟨hentries, hlargest⟩ := htables i f hf
    have hseeks := SSTFile.seeks_singleton hentries hlargest
    rwa [hkey] at hseeks
  · have hw := List.mem_of_getElem? (lastWrite_eq_some.mp hw).1
    rw [hhist, List.mem_singleton] at hw
    rw [hw]

/-- A flushed value and its deletion, whatever the record of the deletion holds. -/
theorem Machine.exists_deleted (crc32c : Bytes → ℕ) {w : Write} (fills : Machine.Fills w) :
    ∃ m, Machine.Reachable crc32c Machine.Flushing m ∧ m.history = [w] ∧ ∀ garbage, ∃ s,
      m.store.del crc32c w.key garbage 1 = .ok s ∧
      ¬ Machine.ScanAnswers crc32c ⟨s, false, [w, ⟨w.key, .kTypeDeletion, []⟩]⟩ w.key w.key := by
  obtain ⟨m, e, keyMap, hflush, hrest, hhist, hseq, hlive, -, -, hkey, htables⟩ :=
    Machine.exists_one_table crc32c fills
  have hreach := hflush.unexpired (by simp [hhist])
  have h : Intact crc32c m := intact_of_reachable (fun _ _ hm => hm.1) hreach
  have hget : (m.store.getImpl crc32c w.key).1 = .ok w.value := by
    refine (h.getImpl_alive (w := w) (n := 0) (by simp [hhist, lastWrite]) hlive.le).1 fills.value ?_
    rintro ⟨-, imm, himm, -⟩
    simp [hrest.imm] at himm
  -- The lookup of `del` leaves an open file behind, and then the deletion is written.
  obtain ⟨m₁, hm₁, hread⟩ : ∃ m₁ : Machine, m₁ = { m with store := (m.store.getImpl crc32c w.key).2 } ∧
      Machine.Reachable crc32c Machine.Unexpired m₁ := by
    rcases m.store.getImpl_snd crc32c w.key with hs | ⟨info, hs⟩
    · exact ⟨m, by rw [hs], hreach⟩
    · refine ⟨_, rfl, ?_⟩
      rw [hs]
      exact hreach.step (a := .read info) ⟨⟨trivial, trivial, trivial⟩, by simp⟩ .read
  obtain ⟨handles, hhandles⟩ := m.store.getImpl_handles crc32c w.key
  have hstore : m₁.store = { m.store with handles := handles } := by rw [hm₁, hhandles]
  have hhist₁ : m₁.history = [w] := by rw [hm₁, hhist]
  refine ⟨m, hflush, hhist, fun garbage => ?_⟩
  obtain ⟨s, hs⟩ := (vlogsOwned_of_reachable hread).writeImpl_isOk crc32c
    ⟨w.key, .kTypeDeletion, []⟩ garbage 1
  have hfits : Write.Fits ⟨w.key, .kTypeDeletion, []⟩ := by
    have hfits := fills.fits
    simp only [Write.Fits, List.length_nil] at hfits ⊢
    omega
  have hreach₂ : Machine.Reachable crc32c Machine.Unexpired
      ⟨s, m₁.flushed, m₁.history ++ [⟨w.key, .kTypeDeletion, []⟩]⟩ := by
    refine hread.step (a := .write _ garbage 1) ⟨⟨?_, trivial, hfits⟩, by simp⟩ (.write hs)
    rw [Machine.Ordering, hstore]
    simp [hseq, kMaxSequenceNumber]
  have hflushed : m₁.flushed = false := by rw [hm₁]; exact hrest.idle
  rw [hhist₁, hflushed] at hreach₂
  refine ⟨s, ?_, fun hanswers => ?_⟩
  · rw [Store.del, ← Prod.mk.eta (p := m.store.getImpl crc32c w.key), hget]
    rw [hm₁] at hs
    exact hs
  · have h₂ : Intact crc32c _ := intact_of_reachable (fun _ _ hm => hm.1) hreach₂
    have hlevels : s.levels = m.store.levels := by
      rw [(Store.writeImpl_fields hs).2.2.1, hstore]
    have hvalues := (hanswers.values h₂ (Machine.Unexpired.live hreach₂) le_rfl fun i f hf => ?_)
      w.key ⟨w.key, .kTypeDeletion, []⟩ 1 le_rfl le_rfl (by simp [lastWrite])
    · simp at hvalues
    · obtain ⟨hentries, hlargest⟩ := htables i f (hlevels ▸ hf)
      have hseeks := SSTFile.seeks_singleton hentries hlargest
      rwa [hkey] at hseeks

/-- **A scan of a deleted key is never right**: after a `put` that is flushed and a `del`, and
whatever bytes the record of the deletion was given. -/
theorem not_scan_answers_deleted :
    ∃ m, Machine.Reachable crc32cCastagnoli Machine.Flushing m ∧
      m.history = [⟨List.replicate 24544 0, .kTypeValue, [9]⟩] ∧ ∀ garbage, ∃ s,
      m.store.del crc32cCastagnoli (List.replicate 24544 0) garbage 1 = .ok s ∧
      ¬ Machine.ScanAnswers crc32cCastagnoli
        ⟨s, false, [⟨List.replicate 24544 0, .kTypeValue, [9]⟩,
          ⟨List.replicate 24544 0, .kTypeDeletion, []⟩]⟩
        (List.replicate 24544 0) (List.replicate 24544 0) := by
  exact Machine.exists_deleted crc32cCastagnoli (Machine.fills_replicate 0)

end Lsmkv
