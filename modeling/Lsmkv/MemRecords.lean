import Lsmkv.Iterators
import Lsmkv.Skiplist
import Lsmkv.Snapshot

/-!
# Memtables, in bytes

`MemTable` (`src/include/memtable.h`, `src/memtable.cpp`) over the skip list and the bytes of its
records, `key_size | key | seq_type | value`.  The comparator takes the internal keys out of two
records, and asserts that they have a tag; a query is a record without a value.

A record and a query stand for an internal key (`MemRecord`), and the comparator compares these
(`compares_memKeyCompare`); so the list finds the first version at or behind the query, and `get`
answers with it if its user key is the one asked for (`get_isAnswer`).  That is what the
`MemTable` of entries answers (`get_eq_memTable`).  The size in a record has 32
bits.  A key that leaves no room for the tag in them stands for nothing: the next comparison with it
fails an assertion (`get_long_key`).
-/

namespace Lsmkv

open ByteCode

namespace MemRecords

/-! ## Records and their order -/

/-- `GetKeyFromMemKey`; a slice that ends behind the record is a fault. -/
def getKeyFromMemKey (record : Bytes) : Outcome Bytes := do
  let size ← Outcome.ofOption (fixedDecode 4 record)
  if 4 + size ≤ record.length then .ok ((record.drop 4).take size) else .fault

/-- The internal key of a record, with the assertion that it has a tag. -/
def internalKey (record : Bytes) : Outcome InternalKey := do
  let key ← getKeyFromMemKey record
  Outcome.ofOption (InternalKey.decode key)

/-- `MemKeyComporator::compare`. -/
def memKeyCompare (a b : Bytes) : Outcome Ordering := do
  let ka ← internalKey a
  let kb ← internalKey b
  .ok (ka.compareImpl kb)

/-- The table of a memtable. -/
abbrev Table := Skiplist Bytes

/-- A call of `put(seq_type, key, value)`: what the sixteen bytes allocated for the value held
before, and the height that is drawn, are arguments of it. -/
structure Put where
  seq : ℕ
  type : ValueType
  key : Bytes
  value : Bytes
  room : Bytes
  height : ℕ

/-- The tag `seq << 8 | type`. -/
def Put.tag (p : Put) : ℕ := (InternalKey.ofWrite p.key p.seq p.type).tag

/-- The record that `put` writes. -/
def Put.record (p : Put) : Bytes :=
  fixedEncode 4 (p.key.length + 8)
    ++ (p.key ++ (fixedEncode 8 p.tag ++ (p.value ++ p.room.drop p.value.length)))

/-- `put`, with its assertions. -/
def put (table : Table) (p : Put) : Outcome Table :=
  if (p.type = .kTypeValue → p.value.length = 16) ∧ (p.type = .kTypeDeletion → p.value = []) then
    table.insert memKeyCompare p.record p.height
  else .fault

/-- Calls of `put` on a new memtable. -/
def putAll (puts : List Put) : Outcome Table := puts.foldlM put (.new [])

/-- `QueryKey(q, key)`: its `mem_key()`.  `rep_` is resized to `len_`, which has 32 bits; a copy
behind it is a fault. -/
def queryRecord (q : ℕ) (key : Bytes) : Outcome Bytes :=
  if (key.length + 12) % 2 ^ 32 = key.length + 12 then
    .ok (fixedEncode 4 (key.length + 8) ++ (key ++ fixedEncode 8 (q * 256 % 2 ^ 64)))
  else .fault

/-- What `get` makes of the record that it finds. -/
def report (query key record : Bytes) : Outcome (Option (Outcome VLogEntryInfo)) := do
  let found ← internalKey record
  if found.userKey = key then do
    let asked ← internalKey query
    if asked.seq < found.seq then .ok none
    else if found.tag % 256 = 1 then do
      let value ← getValueFromMemKey record
      .ok (some (VLogEntryInfo.decode value))
    else if found.tag % 256 = 0 then .ok (some (.fail .kNotFound))
    else .ok none
  else .ok none

/-- `get(qkey, res, s)`; `none` is the result `false`. -/
def get (table : Table) (q : ℕ) (key : Bytes) : Outcome (Option (Outcome VLogEntryInfo)) := do
  let query ← queryRecord q key
  let it ← Skiplist.Iterator.new.seek memKeyCompare table query
  if it.hasNext then do
    let record ← it.key table
    report query key record
  else .ok none

/-! ## What a record stands for -/

/-- The record stands for an internal key; what follows it is `rest`. -/
structure MemRecord (ik : InternalKey) (rest record : Bytes) : Prop where
  bytes : record = fixedEncode 4 (ik.userKey.length + 8) ++ (ik.encode ++ rest)
  size : ik.userKey.length + 8 < 2 ^ 32
  tag : ik.tag < 2 ^ 64

variable {ik : InternalKey} {rest record : Bytes}

theorem MemRecord.fixedDecode_size (h : MemRecord ik rest record) :
    fixedDecode 4 record = some (ik.userKey.length + 8) := by
  rw [h.bytes, fixedDecode_fixedEncode_append]
  exact congrArg some (Nat.mod_eq_of_lt h.size)

theorem MemRecord.internalKey (h : MemRecord ik rest record) : internalKey record = .ok ik := by
  have hlength : 4 + (ik.userKey.length + 8) ≤ record.length := by
    rw [h.bytes]
    simp
  have hdrop : record.drop 4 = ik.encode ++ rest := by
    rw [h.bytes]
    exact List.drop_left' (by simp)
  have hkey : getKeyFromMemKey record = .ok ik.encode := by
    rw [getKeyFromMemKey, h.fixedDecode_size, Outcome.ofOption_some, Outcome.ok_bind, if_pos hlength,
      hdrop, ← InternalKey.length_encode, List.take_left]
  rw [MemRecords.internalKey, hkey, Outcome.ok_bind, InternalKey.decode_encode ik h.tag,
    Outcome.ofOption_some]

theorem MemRecord.value (h : MemRecord ik rest record) : getValueFromMemKey record = .ok rest := by
  have hdrop : record.drop (ik.userKey.length + 8 + 4) = rest := by
    rw [h.bytes, ← List.append_assoc]
    refine List.drop_left' ?_
    simp
    omega
  rw [getValueFromMemKey, h.fixedDecode_size, Outcome.ofOption_some, Outcome.ok_bind, hdrop]

/-- A record that stands for some internal key. -/
def Good (record : Bytes) : Prop := ∃ ik rest, MemRecord ik rest record

/-- The internal key for which a record stands. -/
def rank (record : Bytes) : InternalKey :=
  match internalKey record with
  | .ok ik => ik
  | _ => ⟨[], 0⟩

theorem MemRecord.rank (h : MemRecord ik rest record) : rank record = ik := by
  rw [MemRecords.rank, h.internalKey]

/-- **The comparator compares internal keys.** -/
theorem compares_memKeyCompare : Skiplist.Compares memKeyCompare Good rank := by
  rintro a b ⟨ka, _, ha⟩ ⟨kb, _, hb⟩
  rw [memKeyCompare, ha.internalKey, hb.internalKey, ha.rank, hb.rank]
  exact congrArg Outcome.ok (InternalKey.compareImpl_eq_compare ka kb)

/-- A `put` of the store: a location or a tombstone, and a height that is drawn. -/
structure Put.WellFormed (p : Put) : Prop where
  seq : p.seq < 2 ^ 56
  value : p.type = .kTypeValue → p.value.length = 16
  deletion : p.type = .kTypeDeletion → p.value = []
  room : p.room.length = 16
  height : 1 ≤ p.height ∧ p.height ≤ Skiplist.levels

/-- The key of a `put` has room for the tag in 32 bits. -/
def Put.Fits (p : Put) : Prop := p.key.length + 8 < 2 ^ 32

theorem Put.WellFormed.memRecord {p : Put} (h : p.WellFormed) (fits : p.Fits) :
    MemRecord (.ofWrite p.key p.seq p.type) (p.value ++ p.room.drop p.value.length) p.record where
  bytes := by simp [Put.record, Put.tag, InternalKey.encode]
  size := fits
  tag := by
    have hseq := h.seq
    cases hp : p.type <;> simp only [InternalKey.ofWrite, ValueType.code] <;> omega

theorem memRecord_query {q : ℕ} {key : Bytes} (fits : key.length + 12 < 2 ^ 32) :
    MemRecord ⟨key, q * 256 % 2 ^ 64⟩ []
      (fixedEncode 4 (key.length + 8) ++ (key ++ fixedEncode 8 (q * 256 % 2 ^ 64))) where
  bytes := by simp [InternalKey.encode]
  size := by dsimp only; omega
  tag := Nat.mod_lt _ (Nat.two_pow_pos 64)

/-! ## Gets -/

/-- What a `put` is to be reported as: its location, decoded, or that the key is deleted. -/
def Put.Reports (p : Put) (r : Outcome VLogEntryInfo) : Prop :=
  match p.type with
  | .kTypeValue => ∃ info, VLogEntryInfo.decode p.value = .ok info ∧ r = .ok info
  | .kTypeDeletion => r = .fail .kNotFound

/-- **What `get` should return** for `QueryKey(q, key)`: `false` if every `put` of the key is newer
than the query, and otherwise the newest of those that are not. -/
def IsAnswer (puts : List Put) (q : ℕ) (key : Bytes) : Option (Outcome VLogEntryInfo) → Prop
  | none => ∀ p ∈ puts, p.key = key → q * 256 % 2 ^ 64 < p.tag
  | some r => ∃ p ∈ puts, p.key = key ∧ p.tag ≤ q * 256 % 2 ^ 64 ∧
      (∀ p' ∈ puts, p'.key = key → p'.tag ≤ q * 256 % 2 ^ 64 → p'.tag ≤ p.tag) ∧ p.Reports r

variable {puts : List Put}

/-- Well-formed calls pass the assertions of `put`. -/
theorem putAll_eq_insertAll (wf : ∀ p ∈ puts, p.WellFormed) :
    putAll puts = Skiplist.insertAll memKeyCompare [] (puts.map fun p => (p.record, p.height)) := by
  have hloop : ∀ table : Table, puts.foldlM put table
      = (puts.map fun p => (p.record, p.height)).foldlM (fun s p => s.insert memKeyCompare p.1 p.2)
          table := by
    induction puts with
    | nil => exact fun _ => rfl
    | cons p puts ih =>
        intro table
        have hp := wf p List.mem_cons_self
        have ih := ih fun p' hp' => wf p' (List.mem_cons_of_mem _ hp')
        rw [List.map_cons, List.foldlM_cons, List.foldlM_cons, put, if_pos ⟨hp.value, hp.deletion⟩]
        exact congrArg _ (funext ih)
  exact hloop _

/-- **Calls of `put` build a skip list of their records.** -/
theorem putAll_represents (wf : ∀ p ∈ puts, p.WellFormed) (fits : ∀ p ∈ puts, p.Fits)
    (distinct : puts.Pairwise fun p p' => p.seq ≠ p'.seq) :
    ∃ table, putAll puts = .ok table ∧
      Skiplist.Represents memKeyCompare Good rank table (puts.map Put.record) := by
  have hmem : ∀ n ∈ puts.map fun p => (p.record, p.height), ∃ p ∈ puts, n = (p.record, p.height) := by
    intro n hn
    obtain ⟨p, hp, rfl⟩ := List.mem_map.mp hn
    exact ⟨p, hp, rfl⟩
  obtain ⟨table, order, hrun, hholds, hperm⟩ := (Skiplist.holds_new []).insertAll
    compares_memKeyCompare
    (show ∀ n ∈ puts.map fun p => (p.record, p.height), Good n.1 from fun n hn => by
      obtain ⟨p, hp, rfl⟩ := hmem n hn
      exact ⟨_, _, (wf p hp).memRecord (fits p hp)⟩)
    (fun n hn => by
      obtain ⟨p, hp, rfl⟩ := hmem n hn
      exact (wf p hp).height)
    (by simp)
    (List.pairwise_map.mpr (distinct.imp_of_mem fun {p p'} hp hp' hne heq => hne (by
      rw [((wf p hp).memRecord (fits p hp)).rank, ((wf p' hp').memRecord (fits p' hp')).rank] at heq
      have hseq := congrArg InternalKey.seq heq
      rwa [InternalKey.seq_ofWrite, InternalKey.seq_ofWrite] at hseq)))
  refine ⟨table, by rw [putAll_eq_insertAll wf]; exact hrun, hholds.represents compares_memKeyCompare ?_⟩
  simpa [List.map_map, Function.comp_def] using hperm

/-- `get` in terms of the record that the search finds. -/
theorem get_eq {table : Table} {q : ℕ} {key query : Bytes} (asked : queryRecord q key = .ok query)
    {r : Option ℕ} (search : table.findNode memKeyCompare query = .ok r) :
    get table q key = match r with
      | none => .ok none
      | some n => report query key (table.key n) := by
  rw [get, asked]
  simp only [Outcome.ok_bind, Skiplist.Iterator.seek, search]
  cases r with
  | none => rfl
  | some n => rfl

/-- Sixteen bytes are a location. -/
theorem decode_isOk {b : Bytes} (length : b.length = 16) : ∃ info, VLogEntryInfo.decode b = .ok info := by
  obtain ⟨offset, hoffset⟩ := fixedDecode_isSome (w := 8) (b := b) (by omega)
  obtain ⟨fileNo, hfileNo⟩ := fixedDecode_isSome (w := 4) (b := b.drop 8) (by rw [List.length_drop]; omega)
  obtain ⟨len, hlen⟩ := fixedDecode_isSome (w := 4) (b := b.drop 12) (by rw [List.length_drop]; omega)
  refine ⟨⟨offset, fileNo, len⟩, ?_⟩
  rw [VLogEntryInfo.decode, if_neg (not_not.mpr length), hoffset, hfileNo, hlen]
  rfl

/-- What is reported for a record that the query sees. -/
theorem report_of_seen {p : Put} (wf : p.WellFormed) (fits : p.Fits) {ik : InternalKey}
    {query : Bytes} (asked : MemRecord ik [] query) (key : p.key = ik.userKey)
    (seen : p.tag ≤ ik.tag) : ∃ r, report query ik.userKey p.record = .ok (some r) ∧ p.Reports r := by
  have hseq : ¬ ik.seq < (InternalKey.ofWrite p.key p.seq p.type).seq :=
    not_lt.mpr (Nat.div_le_div_right seen)
  rw [report, (wf.memRecord fits).internalKey, Outcome.ok_bind, InternalKey.ofWrite_userKey, if_pos key,
    asked.internalKey, Outcome.ok_bind, if_neg hseq, (wf.memRecord fits).value]
  cases htype : p.type with
  | kTypeDeletion =>
      refine ⟨.fail .kNotFound, ?_, by simp only [Put.Reports, htype]⟩
      simp [InternalKey.ofWrite, ValueType.code]
  | kTypeValue =>
      have hroom : p.room.drop p.value.length = [] := by
        rw [wf.value htype]
        exact List.drop_eq_nil_of_le wf.room.le
      obtain ⟨info, hinfo⟩ := decode_isOk (wf.value htype)
      refine ⟨.ok info, ?_, by simp only [Put.Reports, htype]; exact ⟨info, hinfo, rfl⟩⟩
      simp [InternalKey.ofWrite, ValueType.code, hroom, hinfo, Nat.add_mod]

/-- **`get` answers with the newest `put` that the query sees**, for every sequence of `put`s with
ascending sequence numbers, whatever heights are drawn and whatever the memory held before. -/
theorem get_isAnswer (wf : ∀ p ∈ puts, p.WellFormed) (fits : ∀ p ∈ puts, p.Fits)
    (ascending : puts.Pairwise fun p p' => p.seq < p'.seq) (q : ℕ) {key : Bytes}
    (size : key.length + 12 < 2 ^ 32) :
    ∃ table r, putAll puts = .ok table ∧ get table q key = .ok r ∧ IsAnswer puts q key r := by
  obtain ⟨table, hrun, hrep⟩ := putAll_represents wf fits (ascending.imp fun hlt => hlt.ne)
  have hasked : queryRecord q key = .ok _ := if_pos (Nat.mod_eq_of_lt size)
  have hquery := memRecord_query (q := q) size
  obtain ⟨r, hfind, hleast⟩ := hrep.find _ ⟨_, _, hquery⟩
  refine ⟨table, ?_⟩
  rw [get_eq hasked hfind]
  have hrank : ∀ p ∈ puts, rank p.record = .ofWrite p.key p.seq p.type :=
    fun p hp => ((wf p hp).memRecord (fits p hp)).rank
  -- A version that the query sees is at or behind the query.
  have hseen : ∀ p ∈ puts, p.key = key → p.tag ≤ q * 256 % 2 ^ 64 →
      (⟨key, q * 256 % 2 ^ 64⟩ : InternalKey) ≤ .ofWrite p.key p.seq p.type := by
    intro p _ hkey htag
    refine not_lt.mp fun hlt => ?_
    rcases InternalKey.lt_iff.mp hlt with hu | ⟨-, ht⟩
    · exact (hkey ▸ hu).false
    · exact absurd ht (not_lt.mpr htag)
  cases r with
  | none =>
      refine ⟨none, hrun, rfl, fun p hp hkey => not_le.mp fun htag => ?_⟩
      have hlt := hleast p.record (List.mem_map_of_mem hp)
      rw [hrank p hp, hquery.rank] at hlt
      exact absurd hlt (not_lt.mpr (hseen p hp hkey htag))
  | some n =>
      obtain ⟨hmem, hge, hmin⟩ := hleast
      obtain ⟨p, hp, hrecord⟩ := List.mem_map.mp hmem
      rw [← hrecord, hrank p hp, hquery.rank] at hge
      have hle : ∀ p₁ ∈ puts, p₁.key = key → p₁.tag ≤ q * 256 % 2 ^ 64 →
          InternalKey.ofWrite p.key p.seq p.type ≤ .ofWrite p₁.key p₁.seq p₁.type := by
        intro p₁ hp₁ hkey htag
        have hle := hmin p₁.record (List.mem_map_of_mem hp₁)
        rw [← hrecord, hquery.rank, hrank p₁ hp₁, hrank p hp] at hle
        exact hle (hseen p₁ hp₁ hkey htag)
      show ∃ r, _ ∧ report _ key (table.key n) = .ok r ∧ _
      rw [← hrecord]
      by_cases hkey : p.key = key
      · have htag : p.tag ≤ q * 256 % 2 ^ 64 := by
          rcases le_iff_lt_or_eq.mp hge with hlt | heq
          · rcases InternalKey.lt_iff.mp hlt with hu | ⟨-, ht⟩
            · exact absurd hu (by simp [hkey])
            · exact ht.le
          · exact (congrArg InternalKey.tag heq).ge
        obtain ⟨r, hreport, hreports⟩ := report_of_seen (wf p hp) (fits p hp) hquery hkey htag
        refine ⟨some r, hrun, hreport, p, hp, hkey, htag,
          fun p₁ hp₁ hkey₁ htag₁ => not_lt.mp fun hlt => ?_, hreports⟩
        refine absurd (hle p₁ hp₁ hkey₁ htag₁) (not_le.mpr ?_)
        exact InternalKey.lt_iff.mpr (.inr ⟨hkey₁.trans hkey.symm, hlt⟩)
      · -- Another user key comes first, so the query sees no version.
        have hother : report (fixedEncode 4 (key.length + 8) ++ (key ++ fixedEncode 8 (q * 256 % 2 ^ 64)))
            key p.record = .ok none := by
          rw [report, ((wf p hp).memRecord (fits p hp)).internalKey, Outcome.ok_bind,
            InternalKey.ofWrite_userKey, if_neg hkey]
        refine ⟨none, hrun, hother, fun p₁ hp₁ hkey₁ => not_le.mp fun htag₁ => ?_⟩
        have hbetween := InternalKey.userKey_le_of_le (hle p₁ hp₁ hkey₁ htag₁)
        have hfrom := InternalKey.userKey_le_of_le hge
        refine hkey (le_antisymm ?_ hfrom)
        rw [← hkey₁]
        exact hbetween

/-- Two versions of a key, a tombstone of a prefix of it, and a query between the versions. -/
theorem get_isAnswer_three : ∃ table r,
    putAll [⟨4, .kTypeValue, [1, 2], List.replicate 16 7, List.replicate 16 0, 2⟩,
      ⟨5, .kTypeDeletion, [1], [], List.replicate 16 9, 1⟩,
      ⟨6, .kTypeValue, [1, 2], List.replicate 16 8, List.replicate 16 0, 3⟩] = .ok table ∧
    get table 5 [1, 2] = .ok r ∧
    IsAnswer [⟨4, .kTypeValue, [1, 2], List.replicate 16 7, List.replicate 16 0, 2⟩,
      ⟨5, .kTypeDeletion, [1], [], List.replicate 16 9, 1⟩,
      ⟨6, .kTypeValue, [1, 2], List.replicate 16 8, List.replicate 16 0, 3⟩] 5 [1, 2] r := by
  refine get_isAnswer (fun p hp => ?_) (fun p hp => ?_) (by simp) 5 (by decide)
  · simp only [List.mem_cons, List.not_mem_nil, or_false] at hp
    rcases hp with rfl | rfl | rfl
    all_goals exact ⟨by decide, by decide, by decide, by decide, by decide⟩
  · simp only [List.mem_cons, List.not_mem_nil, or_false] at hp
    rcases hp with rfl | rfl | rfl
    all_goals exact Nat.lt_of_lt_of_le (by decide : _ < 16) (by decide)

/-! ## Records and entries -/

/-- The entry of a `put`: its key, and what its sixteen bytes hold, written or not. -/
structure Put.Stores (p : Put) (e : Entry VLogEntryInfo) : Prop where
  key : e.key = .ofWrite p.key p.seq p.type
  value : VLogEntryInfo.decode (p.value ++ p.room.drop p.value.length) = .ok e.value

/-- What `get` reports for a record is what the memtable of entries answers with its entry. -/
theorem report_eq {p : Put} {e : Entry VLogEntryInfo} (wf : p.WellFormed) (fits : p.Fits)
    (stores : p.Stores e) {asked : InternalKey} {query : Bytes} (hquery : MemRecord asked [] query) :
    report query asked.userKey p.record
      = .ok (if e.key.userKey = asked.userKey then
          if asked.seq < e.key.seq then none
          else if e.key.type = .kTypeValue then some (.ok e.value)
          else some (.fail .kNotFound)
        else none) := by
  rw [report, (wf.memRecord fits).internalKey, Outcome.ok_bind, stores.key]
  by_cases hkey : p.key = asked.userKey
  · rw [InternalKey.ofWrite_userKey, if_pos hkey, if_pos hkey, hquery.internalKey, Outcome.ok_bind]
    by_cases hseq : asked.seq < (InternalKey.ofWrite p.key p.seq p.type).seq
    · rw [if_pos hseq, if_pos hseq]
    · rw [if_neg hseq, if_neg hseq, (wf.memRecord fits).value, Outcome.ok_bind, stores.value]
      cases htype : p.type with
      | kTypeDeletion => simp [InternalKey.ofWrite, ValueType.code, InternalKey.type]
      | kTypeValue => simp [InternalKey.ofWrite, ValueType.code, InternalKey.type, Nat.add_mod]
  · rw [InternalKey.ofWrite_userKey, if_neg hkey, if_neg hkey]

theorem queryKey_eq {q : ℕ} (small : q < 2 ^ 56) (key : Bytes) :
    (⟨key, q * 256 % 2 ^ 64⟩ : InternalKey) = queryKey q key := by
  rw [queryKey, Nat.mod_eq_of_lt (by omega)]

/-- The first of sorted entries at or behind a key is the least one. -/
theorem find_ge_eq {α : Type} {es : List (Entry α)} (sorted : StrictlySorted es) {e : Entry α} (mem : e ∈ es)
    {k : InternalKey} (ge : k ≤ e.key) (least : ∀ d ∈ es, k ≤ d.key → e.key ≤ d.key) :
    es.find? (fun d => decide (k ≤ d.key)) = some e := by
  induction es with
  | nil => simp at mem
  | cons c es ih =>
      obtain ⟨hc, hes⟩ := List.pairwise_cons.mp sorted
      rcases List.mem_cons.mp mem with rfl | hmem
      · exact List.find?_cons_of_pos (by simpa using ge)
      · have hlt : ¬ k ≤ c.key := fun hle =>
          absurd (hc e hmem) (not_lt.mpr (least c List.mem_cons_self hle))
        rw [List.find?_cons_of_neg (by simpa using hlt)]
        exact ih hes hmem fun d hd => least d (List.mem_cons_of_mem _ hd)

/-- **The memtable in bytes answers like the memtable of entries.** -/
theorem get_eq_memTable (wf : ∀ p ∈ puts, p.WellFormed) (fits : ∀ p ∈ puts, p.Fits)
    (distinct : puts.Pairwise fun p p' => p.seq ≠ p'.seq) {es : List (Entry VLogEntryInfo)}
    (stores : List.Forall₂ Put.Stores puts es) {m : MemTable} (sorted : StrictlySorted m.entries)
    (perm : m.entries.Perm es) :
    ∃ table, putAll puts = .ok table ∧ ∀ q key, q < 2 ^ 56 → QueryFits key →
      get table q key = .ok (m.get (queryKey q key)) := by
  obtain ⟨table, hrun, hrep⟩ := putAll_represents wf fits distinct
  refine ⟨table, hrun, fun q key small size => ?_⟩
  have hasked : queryRecord q key = .ok _ := if_pos (Nat.mod_eq_of_lt size)
  have hquery := memRecord_query (q := q) size
  rw [queryKey_eq small] at hquery
  obtain ⟨r, hfind, hleast⟩ := hrep.find _ ⟨_, _, hquery⟩
  rw [get_eq hasked hfind, MemTable.get]
  have hrank : ∀ p ∈ puts, ∀ e, p.Stores e → rank p.record = e.key :=
    fun p hp e he => by rw [((wf p hp).memRecord (fits p hp)).rank, he.key]
  have hentry : ∀ p ∈ puts, ∃ e ∈ m.entries, p.Stores e := fun p hp => by
    obtain ⟨e, he, hs⟩ := exists_of_forall₂ stores hp
    exact ⟨e, perm.mem_iff.mpr he, hs⟩
  have hput : ∀ e ∈ m.entries, ∃ p ∈ puts, p.Stores e := fun e he =>
    exists_of_forall₂ (List.Forall₂.flip stores) (perm.mem_iff.mp he)
  cases r with
  | none =>
      have hnone : m.entries.find? (fun e => decide (queryKey q key ≤ e.key)) = none := by
        refine List.find?_eq_none.mpr fun e he hle => ?_
        obtain ⟨p, hp, hs⟩ := hput e he
        have hlt := hleast p.record (List.mem_map_of_mem hp)
        rw [hrank p hp e hs, hquery.rank] at hlt
        exact absurd hlt (not_lt.mpr (by simpa using hle))
      rw [hnone]
  | some n =>
      obtain ⟨hmem, hge, hmin⟩ := hleast
      obtain ⟨p, hp, hrecord⟩ := List.mem_map.mp hmem
      obtain ⟨e, he, hs⟩ := hentry p hp
      rw [← hrecord, hrank p hp e hs, hquery.rank] at hge
      have hfound : m.entries.find? (fun e => decide (queryKey q key ≤ e.key)) = some e := by
        refine find_ge_eq sorted he hge fun d hd hle => ?_
        obtain ⟨p', hp', hs'⟩ := hput d hd
        have hle' := hmin p'.record (List.mem_map_of_mem hp')
        rw [← hrecord, hquery.rank, hrank p' hp' d hs', hrank p hp e hs] at hle'
        exact hle' hle
      rw [hfound]
      show report _ key (table.key n) = _
      rw [← hrecord]
      exact report_eq (wf p hp) (fits p hp) hs hquery

/-! ## Versions -/

/-- The call of `put` for a version.  What the sixteen bytes of a tombstone held before is what
its entry has for a location. -/
def ofVersion (height : ℕ → ℕ) (v : KeyVersion) : Put where
  seq := v.seq
  type := v.type
  key := v.userKey
  value := if v.type = .kTypeValue then v.location.encode else []
  room := v.location.encode
  height := height v.seq

/-- A version that a store can have: a sequence number of 56 bits, a key that a `QueryKey` can
hold, and a location of three fixed-width numbers. -/
structure VersionFits (v : KeyVersion) : Prop where
  seq : v.seq < 2 ^ 56
  key : QueryFits v.userKey
  location : v.location.Fits

variable {height : ℕ → ℕ} {v : KeyVersion} {vs : List KeyVersion}

theorem VersionFits.stores (h : VersionFits v) : (ofVersion height v).Stores v.entry := by
  refine ⟨rfl, ?_⟩
  by_cases hv : v.type = .kTypeValue
  · have hroom : v.location.encode.drop 16 = [] :=
      List.drop_eq_nil_of_le (VLogEntryInfo.length_encode _).le
    simp [ofVersion, hv, KeyVersion.entry, hroom, VLogEntryInfo.decode_encode h.location]
  · simp [ofVersion, hv, KeyVersion.entry, VLogEntryInfo.decode_encode h.location]

theorem VersionFits.wellFormed (h : VersionFits v)
    (heights : 1 ≤ height v.seq ∧ height v.seq ≤ Skiplist.levels) :
    (ofVersion height v).WellFormed where
  seq := h.seq
  value hv := by
    have hv : v.type = .kTypeValue := hv
    simp [ofVersion, hv]
  deletion hv := by
    have hv : v.type = .kTypeDeletion := hv
    simp [ofVersion, hv]
  room := VLogEntryInfo.length_encode _
  height := heights

/-- **The memtable of versions, in bytes**: what `get` finds in the skip list of records is what
the memtable of entries answers, for every query that a `QueryKey` can hold. -/
theorem get_ofVersions (distinct : (vs.map KeyVersion.seq).Nodup) (fits : ∀ v ∈ vs, VersionFits v)
    (heights : ∀ v ∈ vs, 1 ≤ height v.seq ∧ height v.seq ≤ Skiplist.levels) :
    ∃ table, putAll (vs.map (ofVersion height)) = .ok table ∧
      ∀ q key, q < 2 ^ 56 → QueryFits key →
        get table q key = .ok ((MemTable.ofVersions height vs).get (queryKey q key)) := by
  refine get_eq_memTable ?_ ?_ ?_ ?_ (MemTable.ofVersions_sorted distinct)
    (MemTable.ofVersions_perm height vs)
  · exact List.forall_mem_map.mpr fun v hv => (fits v hv).wellFormed (heights v hv)
  · refine List.forall_mem_map.mpr fun v hv => ?_
    have hkey := (fits v hv).key
    rw [QueryFits] at hkey
    show v.userKey.length + 8 < 2 ^ 32
    omega
  · exact List.pairwise_map.mpr (List.pairwise_map.mp distinct)
  · rw [List.forall₂_map_left_iff, List.forall₂_map_right_iff]
    exact List.forall₂_same.mpr fun v hv => (fits v hv).stores

/-! ## Keys that are too long -/

/-- A key of `2 ^ 32 - 8` bytes is recorded with size 0. -/
theorem internalKey_record_long {p : Put} (long : p.key.length + 8 = 2 ^ 32) :
    internalKey p.record = .fault := by
  have hsize : fixedDecode 4 p.record = some 0 := by
    rw [Put.record, fixedDecode_fixedEncode_append, long]
    rfl
  have hkey : getKeyFromMemKey p.record = .ok [] := by
    rw [getKeyFromMemKey, hsize, Outcome.ofOption_some, Outcome.ok_bind, if_pos, List.take_zero]
    rw [Put.record, List.length_append, length_fixedEncode]
    exact Nat.le_add_right _ _
  rw [internalKey, hkey]
  rfl

/-- A first `put` compares nothing. -/
theorem putAll_singleton {p : Put} (wf : p.WellFormed) (height : p.height = 1) :
    ∃ table : Table, putAll [p] = .ok table ∧ table.maxLevel = 1 ∧ table.height 0 = Skiplist.levels ∧
      table.next 0 0 = some 1 ∧ table.key 1 = p.record := by
  apply Exists.intro
  constructor
  · rw [putAll, List.foldlM_cons, put, if_pos ⟨wf.value, wf.deletion⟩, height]
    rfl
  · exact ⟨rfl, rfl, rfl, rfl⟩

/-- **A key that is too long breaks the table for all keys**: the next search stops at it with a
failed assertion. -/
theorem get_long_key {p : Put} (wf : p.WellFormed) (height : p.height = 1)
    (long : p.key.length + 8 = 2 ^ 32) (q : ℕ) (key : Bytes) (size : key.length + 12 < 2 ^ 32) :
    ∃ table, putAll [p] = .ok table ∧ get table q key = .fault := by
  obtain ⟨table, hrun, hmax, hhead, hnext, hkey⟩ := putAll_singleton wf height
  have hasked : queryRecord q key = .ok _ := if_pos (Nat.mod_eq_of_lt size)
  have hfind : ∀ query, table.findNode memKeyCompare query = .fault := by
    intro query
    have hrounds : table.size + table.maxLevel = table.size + 1 := by rw [hmax]
    have hlevel : table.maxLevel - 1 = 0 := by rw [hmax]
    have hat : table.nextAt 0 0 = .ok (some 1) := by
      rw [Skiplist.nextAt, hhead, if_pos (by decide), hnext]
    have hafter : table.keyIsAfterNode memKeyCompare query (some 1) = .fault := by
      rw [Skiplist.keyIsAfterNode, hkey, memKeyCompare, internalKey_record_long long]
      rfl
    rw [Skiplist.findNode, hrounds, hlevel, Skiplist.findLoop, hat, Outcome.ok_bind, hafter]
    rfl
  refine ⟨table, hrun, ?_⟩
  rw [get, hasked, Outcome.ok_bind, Skiplist.Iterator.seek, hfind]
  rfl

/-- A key of `2 ^ 32 - 8` bytes, and a `get` of another one. -/
theorem not_get_isAnswer : ¬ ∀ puts : List Put, (∀ p ∈ puts, p.WellFormed) →
    puts.Pairwise (fun p p' => p.seq < p'.seq) → ∀ q key,
      ∃ table r, putAll puts = .ok table ∧ get table q key = .ok r ∧ IsAnswer puts q key r := by
  intro claim
  obtain ⟨u, hu⟩ : ∃ u : Bytes, u.length = 2 ^ 32 - 8 := ⟨List.replicate _ 0, List.length_replicate⟩
  let p : Put := ⟨0, .kTypeDeletion, u, [], List.replicate 16 0, 1⟩
  have hwf : p.WellFormed := ⟨Nat.two_pow_pos 56, nofun, fun _ => rfl, rfl, le_rfl, (by decide : 1 ≤ Skiplist.levels)⟩
  have hlong : p.key.length + 8 = 2 ^ 32 := by
    show u.length + 8 = 2 ^ 32
    omega
  obtain ⟨table, hrun, hfault⟩ := get_long_key hwf rfl hlong 1 [1] (by decide)
  obtain ⟨table', r, hrun', hget, -⟩ := claim [p] (by simpa using hwf) (List.pairwise_singleton _ _) 1 [1]
  obtain rfl : table = table' := Outcome.ok.inj (hrun.symm.trans hrun')
  rw [hfault] at hget
  cases hget

end MemRecords

end Lsmkv
