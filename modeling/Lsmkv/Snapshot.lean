import Mathlib.Data.List.TakeWhile
import Lsmkv.Store

/-!
# Reading at a sequence number

A query key carries a sequence number `q`, and a read at `q` is for the newest version of a
user key that is not newer than `q` (`IsVisible`).  Three paths select a version:
`MemTable::get`; the range iteration of the skip list, `seek(K1, K2)`, followed by `Scan`
(`src/include/levelcache.h`); and `FilterInIndex` followed by `FindInBlock` on the table that
`BuildTable` makes of the memtable.  Each is described here by the version it selects, and
what it returns is a function of that version (`MemTable.get_eq_select`,
`readTable_eq_select`).

The paths agree with `IsVisible` for every user key exactly under two conditions
(`pathsSelect_iff`).  The type byte of a query key is zero, so that a value with sequence
number `q` lies before the query and is passed over.  And `FindInBlock` gives up at the first
version of the user key in the block when that version is newer than `q`, so that no block
may hold both such a version and an older one.
-/

namespace Lsmkv

open ByteCode

/-! ## The visible version -/

section Visible

variable {α : Type}

/-- The version of a user key with the greatest sequence number not above `q`. -/
def IsVisible (vs : List (Entry α)) (q : ℕ) (u : Bytes) (e : Entry α) : Prop :=
  e ∈ vs ∧ e.key.userKey = u ∧ e.key.seq ≤ q ∧
    ∀ d ∈ vs, d.key.userKey = u → d.key.seq ≤ q → d.key.seq ≤ e.key.seq

/-- A read path found the visible version, and nothing where there is none. -/
def Selects (vs : List (Entry α)) (q : ℕ) (u : Bytes) (found : Option (Entry α)) : Prop :=
  ∀ e, found = some e ↔ IsVisible vs q u e

/-- The first version of a user key that is not newer than `q`. -/
def visible (es : List (Entry α)) (q : ℕ) (u : Bytes) : Option (Entry α) :=
  es.find? fun e => decide (e.key.userKey = u ∧ e.key.seq ≤ q)

variable {es fs : List (Entry α)} {q : ℕ} {u : Bytes} {e : Entry α}

theorem visible_eq_none :
    visible es q u = none ↔ ∀ e ∈ es, e.key.userKey = u → q < e.key.seq := by
  simp [visible]

theorem visible_append (es fs : List (Entry α)) (q : ℕ) (u : Bytes) :
    visible (es ++ fs) q u = (visible es q u).or (visible fs q u) := by
  simp [visible, List.find?_append]

theorem visible_mem (h : visible es q u = some e) :
    e ∈ es ∧ e.key.userKey = u ∧ e.key.seq ≤ q := by
  have hprop := List.find?_some h
  simp only [decide_eq_true_eq] at hprop
  exact ⟨List.mem_of_find?_eq_some h, hprop⟩

/-- Where the versions of a user key come newest first, the first one that is not newer than `q`
is the greatest one. -/
theorem isVisible_of_descending
    (descending : es.Pairwise fun c d => c.key.userKey = d.key.userKey → d.key.seq ≤ c.key.seq)
    (h : visible es q u = some e) : IsVisible es q u e := by
  obtain ⟨hmem, hu, hq⟩ := visible_mem h
  refine ⟨hmem, hu, hq, ?_⟩
  induction es with
  | nil => simp at hmem
  | cons c es ih =>
      obtain ⟨hc, hes⟩ := List.pairwise_cons.mp descending
      intro d hd hdu hdq
      by_cases hsel : c.key.userKey = u ∧ c.key.seq ≤ q
      · obtain rfl : c = e := by simpa [visible, hsel] using h
        rcases List.mem_cons.mp hd with rfl | hd
        · exact le_rfl
        · exact hc d hd (hu.trans hdu.symm)
      · have htail : visible es q u = some e := by simpa [visible, hsel] using h
        rcases List.mem_cons.mp hd with rfl | hd
        · exact absurd ⟨hdu, hdq⟩ hsel
        · exact ih hes htail (visible_mem htail).1 d hd hdu hdq

/-- In a sorted run the first version that is not newer than `q` is the greatest one. -/
theorem visible_isVisible (sorted : StrictlySorted es) (h : visible es q u = some e) :
    IsVisible es q u e :=
  isVisible_of_descending (sorted.imp fun hlt => InternalKey.seq_le_of_le hlt.le) h

/-- **In a sorted run with distinct sequence numbers `visible` is the visible version.** -/
theorem selects_visible (sorted : StrictlySorted es)
    (distinct : (es.map fun e => e.key.seq).Nodup) (q : ℕ) (u : Bytes) :
    Selects es q u (visible es q u) := by
  intro e
  refine ⟨visible_isVisible sorted, fun he => ?_⟩
  obtain ⟨d, hd⟩ : ∃ d, visible es q u = some d := by
    rw [← Option.ne_none_iff_exists']
    intro hnone
    exact absurd (visible_eq_none.mp hnone e he.1 he.2.1) (not_lt.mpr he.2.2.1)
  have hdv := visible_isVisible sorted hd
  have hseq : d.key.seq = e.key.seq :=
    le_antisymm (he.2.2.2 d hdv.1 hdv.2.1 hdv.2.2.1) (hdv.2.2.2 e he.1 he.2.1 he.2.2.1)
  rw [hd, List.inj_on_of_nodup_map distinct hdv.1 he.1 hseq]

theorem Selects.congr {vs : List (Entry α)} (same : ∀ e, e ∈ vs ↔ e ∈ es)
    (found : Option (Entry α)) : Selects vs q u found ↔ Selects es q u found := by
  simp only [Selects, IsVisible, same]

/-- What is selected is determined. -/
theorem selects_iff (sorted : StrictlySorted es)
    (distinct : (es.map fun e => e.key.seq).Nodup) {found : Option (Entry α)} :
    Selects es q u found ↔ found = visible es q u := by
  constructor
  · intro h
    ext e
    rw [h e, selects_visible sorted distinct q u e]
  · rintro rfl
    exact selects_visible sorted distinct q u

end Visible

/-! ## `MemTable::get` -/

/-- The version that `MemTable::get` answers from. -/
def MemTable.select (m : MemTable) (query : InternalKey) : Option (Entry VLogEntryInfo) :=
  match m.entries.find? fun e => decide (query ≤ e.key) with
  | none => none
  | some e =>
      if e.key.userKey = query.userKey then
        if query.seq < e.key.seq then none else some e
      else none

theorem MemTable.get_eq_select (m : MemTable) (query : InternalKey) :
    m.get query = memAnswer (m.select query) := by
  rw [MemTable.get, MemTable.select]
  cases m.entries.find? fun e => decide (query ≤ e.key) with
  | none => rfl
  | some e =>
      by_cases hu : e.key.userKey = query.userKey
      · by_cases hseq : query.seq < e.key.seq
        · simp [hu, hseq, memAnswer]
        · simp [hu, hseq, memAnswer]
      · simp [hu, memAnswer]

/-- The selected version is the first one of the user key that is not before the query. -/
theorem MemTable.select_eq_find {m : MemTable} (sorted : StrictlySorted m.entries) (q : ℕ)
    (u : Bytes) :
    m.select (queryKey q u)
      = m.entries.find? fun e => decide (e.key.userKey = u ∧ e.key.tag ≤ q * 256) := by
  rw [MemTable.select]
  generalize m.entries = es at sorted
  induction es with
  | nil => rfl
  | cons c es ih =>
      obtain ⟨hc, hes⟩ := List.pairwise_cons.mp sorted
      by_cases hle : queryKey q u ≤ c.key
      · rw [List.find?_cons_of_pos (by simpa using hle)]
        rcases InternalKey.le_iff.mp hle with hlt | ⟨hu, htag⟩
        · -- The chain is past the user key.
          have hnone : ((c :: es).find? fun e => decide (e.key.userKey = u ∧ e.key.tag ≤ q * 256))
              = none := by
            rw [List.find?_eq_none]
            intro d hd hsel
            simp only [decide_eq_true_eq] at hsel
            have hcd : c.key.userKey ≤ d.key.userKey := by
              rcases List.mem_cons.mp hd with rfl | hd
              · exact le_rfl
              · exact InternalKey.userKey_le_of_le (hc d hd).le
            exact absurd (hsel.1 ▸ hcd) (not_le.mpr hlt)
          have hne : c.key.userKey ≠ (queryKey q u).userKey := hlt.ne'
          rw [hnone]
          simp only [hne, if_false]
        · have hseq : ¬ q < c.key.seq := by
            have hle := Nat.div_le_div_right (c := 256) htag
            simp only [queryKey, Nat.mul_div_cancel _ (show 0 < 256 by norm_num)] at hle
            exact not_lt.mpr hle
          have hsel : c.key.userKey = u ∧ c.key.tag ≤ q * 256 := ⟨hu.symm, htag⟩
          simp [hsel, hseq]
      · rw [List.find?_cons_of_neg (by simpa using hle), ih hes]
        have hsel : ¬ (c.key.userKey = u ∧ c.key.tag ≤ q * 256) := by
          rintro ⟨hu, htag⟩
          exact hle (InternalKey.le_iff.mpr (.inr ⟨hu.symm, htag⟩))
        simp [hsel]

/-! ## The range iteration of the skip list -/

/-- Iteration from `_cur` to `_end`.  A node stands for the part of the chain that starts at
it, and `_end` is met when the lengths agree. -/
def untilEnd {α : Type} (stop : List α) : List α → List α
  | [] => []
  | e :: es => if (e :: es).length = stop.length then [] else e :: untilEnd stop es

/-- `seek(K1, K2)` of the skip list and the iteration that follows: `_cur` and `_end` are the
first nodes that are not before `K1` and `K2`, and `_end` moves one node on when its user key
is that of `K2`. -/
def MemTable.range (m : MemTable) (K1 K2 : InternalKey) : List (Entry VLogEntryInfo) :=
  let cur := m.entries.dropWhile fun e => decide (e.key < K1)
  match m.entries.dropWhile fun e => decide (e.key < K2) with
  | [] => untilEnd [] cur
  | e :: es => if e.key.userKey = K2.userKey then untilEnd es cur else untilEnd (e :: es) cur

theorem untilEnd_append {α : Type} (a stop : List α) : untilEnd stop (a ++ stop) = a := by
  induction a with
  | nil => cases stop <;> simp [untilEnd]
  | cons e a ih =>
      have hlen : (e :: (a ++ stop)).length ≠ stop.length := by simp; omega
      rw [List.cons_append, untilEnd, if_neg hlen, ih]

/-- What is left of a sorted chain from the first entry that is not before a key. -/
theorem le_of_mem_dropWhile {es : List (Entry VLogEntryInfo)} (sorted : StrictlySorted es)
    {K : InternalKey} {e : Entry VLogEntryInfo}
    (mem : e ∈ es.dropWhile fun d => decide (d.key < K)) : K ≤ e.key := by
  cases hdrop : es.dropWhile fun d => decide (d.key < K) with
  | nil => simp [hdrop] at mem
  | cons d rest =>
      have hd : K ≤ d.key := by
        have hhead := List.head?_dropWhile_not (fun d => decide (d.key < K)) es
        rw [hdrop] at hhead
        simpa using hhead
      have hsorted := sorted.sublist (List.dropWhile_sublist fun d => decide (d.key < K))
      rw [hdrop] at mem hsorted
      rcases List.mem_cons.mp mem with rfl | mem
      · exact hd
      · exact hd.trans ((List.pairwise_cons.mp hsorted).1 e mem).le

/-- **What the range iteration leaves out.**  It yields entries from `K1` on, up to the user key
of `K2`.  Before it lie the entries before `K1`; behind it lie larger user keys, and of `K2`'s own
user key only versions behind one that is yielded. -/
theorem MemTable.range_split {m : MemTable} (sorted : StrictlySorted m.entries)
    {K1 K2 : InternalKey} (le : K1 ≤ K2) :
    ∃ pre post, m.entries = pre ++ (m.range K1 K2 ++ post) ∧ (∀ e ∈ pre, e.key < K1) ∧
      (∀ e ∈ m.range K1 K2, K1 ≤ e.key ∧ e.key.userKey ≤ K2.userKey) ∧
      ∀ e ∈ post, K2.userKey < e.key.userKey ∨
        ∃ d ∈ m.range K1 K2, d.key.userKey = K2.userKey ∧ K2 ≤ d.key ∧ d.key < e.key := by
  set pre := m.entries.takeWhile fun e => decide (e.key < K1)
  set cur := m.entries.dropWhile fun e => decide (e.key < K1)
  have hsplit : m.entries = pre ++ cur := (List.takeWhile_append_dropWhile).symm
  have hpre : ∀ e ∈ pre, e.key < K1 := fun e he => by simpa using List.mem_takeWhile_imp he
  -- The end lies at or behind the start.
  have hdrop : m.entries.dropWhile (fun e => decide (e.key < K2))
      = cur.dropWhile fun e => decide (e.key < K2) := by
    rw [hsplit, List.dropWhile_append_of_pos]
    intro e he
    simpa using (hpre e he).trans_le le
  have hcur : cur = cur.takeWhile (fun e => decide (e.key < K2))
      ++ cur.dropWhile fun e => decide (e.key < K2) := (List.takeWhile_append_dropWhile).symm
  have hsorted : StrictlySorted cur := (List.pairwise_append.mp (hsplit ▸ sorted)).2.1
  have hge : ∀ e ∈ cur, K1 ≤ e.key := fun e he => le_of_mem_dropWhile sorted he
  set a := cur.takeWhile fun e => decide (e.key < K2)
  have hle : ∀ e ∈ a, e.key.userKey ≤ K2.userKey := by
    intro e he
    have hlt : e.key < K2 := by simpa using List.mem_takeWhile_imp he
    exact InternalKey.userKey_le_of_le hlt.le
  have hin : ∀ e ∈ a, e ∈ cur := fun e he => (List.takeWhile_sublist _).subset he
  have hrange : m.range K1 K2 = match cur.dropWhile fun e => decide (e.key < K2) with
      | [] => untilEnd [] cur
      | e :: es => if e.key.userKey = K2.userKey then untilEnd es cur else untilEnd (e :: es) cur := by
    rw [MemTable.range, hdrop]
  cases hstop : cur.dropWhile fun e => decide (e.key < K2) with
  | nil =>
      rw [hstop] at hcur hrange
      have hall : m.range K1 K2 = a := by rw [hrange, hcur, untilEnd_append]
      refine ⟨pre, [], by rw [hall, hsplit, hcur], hpre, ?_, by simp⟩
      rw [hall]
      exact fun e he => ⟨hge e (hin e he), hle e he⟩
  | cons d rest =>
      rw [hstop] at hcur hrange
      have hd : K2 ≤ d.key := by
        have hhead := List.head?_dropWhile_not (fun e => decide (e.key < K2)) cur
        rw [hstop] at hhead
        simpa using hhead
      have hrest : ∀ e ∈ rest, d.key < e.key := by
        have htail := (List.pairwise_append.mp (hcur ▸ hsorted)).2.1
        exact (List.pairwise_cons.mp htail).1
      by_cases hu : d.key.userKey = K2.userKey
      · have hcur' : cur = (a ++ [d]) ++ rest := by rw [hcur, List.append_assoc, List.singleton_append]
        have hall : m.range K1 K2 = a ++ [d] := by
          rw [hrange]
          simp only [hu, if_true]
          rw [hcur', untilEnd_append]
        rw [hall]
        refine ⟨pre, rest, by rw [hsplit, hcur'], hpre, fun e he => ?_,
          fun e he => .inr ⟨d, by simp, hu, hd, hrest e he⟩⟩
        refine ⟨hge e (by rw [hcur']; exact List.mem_append_left _ he), ?_⟩
        rcases List.mem_append.mp he with he | he
        · exact hle e he
        · rw [List.mem_singleton.mp he, hu]
      · have hall : m.range K1 K2 = a := by
          rw [hrange]
          simp only [hu, if_false]
          rw [hcur, untilEnd_append]
        rw [hall]
        refine ⟨pre, d :: rest, by rw [hsplit, hcur], hpre,
          fun e he => ⟨hge e (hin e he), hle e he⟩, fun e he => .inl ?_⟩
        have hlt : K2.userKey < d.key.userKey :=
          lt_of_le_of_ne (InternalKey.userKey_le_of_le hd) (Ne.symm hu)
        rcases List.mem_cons.mp he with rfl | he
        · exact hlt
        · exact hlt.trans_le (InternalKey.userKey_le_of_le (hrest e he).le)

/-! ## `Scan` -/

instance : Std.TransCmp strCompare where
  eq_swap {a b} := by
    rcases lt_trichotomy a b with hlt | rfl | hgt
    · rw [strCompare_eq_lt.mpr hlt, strCompare_eq_gt.mpr hlt]
      rfl
    · rw [strCompare_self]
      rfl
    · rw [strCompare_eq_gt.mpr hgt, strCompare_eq_lt.mpr hgt]
      rfl
  isLE_trans {a b c} hab hbc := by
    simp only [← Ordering.ne_gt_iff_isLE, strCompare_eq_gt, not_lt] at hab hbc ⊢
    exact hab.trans hbc

instance : Std.LawfulEqCmp strCompare where
  compare_self := strCompare_self _
  eq_of_compare h := strCompare_eq_eq.mp h

/-- The map that a scan collects in.  The source keeps the value that is stored with a
version; here the version is kept with it. -/
abbrev KeyMap := Std.TreeMap Bytes (Entry VLogEntryInfo) strCompare

namespace KeyMap

/-- The second loop of `Scan`. -/
def scanFrom (seq : ℕ) (lastKey : Bytes) (keyMap : KeyMap) : List (Entry VLogEntryInfo) → KeyMap
  | [] => keyMap
  | e :: es =>
      if e.key.seq ≤ seq ∧ e.key.userKey ≠ lastKey then
        scanFrom seq e.key.userKey (keyMap.insertIfNew e.key.userKey e) es
      else scanFrom seq lastKey keyMap es

/-- `Scan(key_map, iter, seq)` with the entries that the iterator yields.  The first loop
runs to the first entry that is not newer than `seq`. -/
def scan (seq : ℕ) (keyMap : KeyMap) : List (Entry VLogEntryInfo) → KeyMap
  | [] => keyMap
  | e :: es =>
      if e.key.seq ≤ seq then
        scanFrom seq e.key.userKey (keyMap.insertIfNew e.key.userKey e) es
      else scan seq keyMap es

theorem getElem?_emplace (keyMap : KeyMap) (e : Entry VLogEntryInfo) (u : Bytes) :
    (keyMap.insertIfNew e.key.userKey e)[u]?
      = keyMap[u]?.or (if e.key.userKey = u then some e else none) := by
  simp only [Std.TreeMap.getElem?_insertIfNew, strCompare_eq_eq]
  by_cases hu : e.key.userKey = u
  · subst hu
    by_cases hmem : e.key.userKey ∈ keyMap
    · simp [hmem]
    · simp [hmem]
  · simp [hu]

/-- The test against `last_key` passes over versions that the map would not take. -/
theorem getElem?_scanFrom {seq : ℕ} {lastKey : Bytes} {keyMap : KeyMap}
    (last : lastKey ∈ keyMap) (es : List (Entry VLogEntryInfo)) (u : Bytes) :
    (scanFrom seq lastKey keyMap es)[u]? = keyMap[u]?.or (visible es seq u) := by
  induction es generalizing lastKey keyMap with
  | nil => simp [scanFrom, visible]
  | cons e es ih =>
      rw [scanFrom]
      split
      · rename_i htake
        rw [ih (by simp), getElem?_emplace, Option.or_assoc]
        congr 1
        by_cases hu : e.key.userKey = u
        · simp [visible, hu, htake.1]
        · simp [visible, hu]
      · rename_i hskip
        rw [ih last]
        by_cases hsel : e.key.userKey = u ∧ e.key.seq ≤ seq
        · -- Its user key is in the map already.
          have hlast : u = lastKey := by
            by_contra hne
            exact hskip ⟨hsel.2, fun h => hne (hsel.1.symm.trans h)⟩
          have hsome : keyMap[u]?.isSome := Std.TreeMap.isSome_getElem?_iff_mem.mpr (hlast ▸ last)
          rw [Option.or_of_isSome hsome, Option.or_of_isSome hsome]
        · simp [visible, hsel]

/-- **What `Scan` adds to the map**: for a user key that the map lacks, the first version
that is not newer than `seq`. -/
theorem getElem?_scan (seq : ℕ) (keyMap : KeyMap) (es : List (Entry VLogEntryInfo)) (u : Bytes) :
    (scan seq keyMap es)[u]? = keyMap[u]?.or (visible es seq u) := by
  induction es with
  | nil => simp [scan, visible]
  | cons e es ih =>
      rw [scan]
      split
      · rename_i hseq
        rw [getElem?_scanFrom (by simp), getElem?_emplace, Option.or_assoc]
        congr 1
        by_cases hu : e.key.userKey = u
        · simp [visible, hu, hseq]
        · simp [visible, hu]
      · rename_i hseq
        rw [ih]
        simp [visible, hseq]

/-- `Scan` on one source after another. -/
def scanAll (seq : ℕ) (keyMap : KeyMap) (sources : List (List (Entry VLogEntryInfo))) : KeyMap :=
  sources.foldl (fun keyMap es => keyMap.scan seq es) keyMap

theorem getElem?_scanAll (seq : ℕ) (keyMap : KeyMap)
    (sources : List (List (Entry VLogEntryInfo))) (u : Bytes) :
    (scanAll seq keyMap sources)[u]? = keyMap[u]?.or (visible sources.flatten seq u) := by
  induction sources generalizing keyMap with
  | nil => simp [scanAll, visible]
  | cons es sources ih =>
      have hstep : scanAll seq keyMap (es :: sources)
          = scanAll seq (keyMap.scan seq es) sources := rfl
      rw [hstep, ih, getElem?_scan, List.flatten_cons, visible_append, Option.or_assoc]

/-- **Scanning sources newest first leaves the newest visible versions in the map**, and nothing
for a user key without a visible version. -/
theorem scanAll_newest (seq : ℕ) {sources : List (List (Entry VLogEntryInfo))}
    (sorted : ∀ es ∈ sources, es.Pairwise fun c d => c.key.userKey < d.key.userKey ∨
      c.key.userKey = d.key.userKey ∧ d.key.seq ≤ c.key.seq)
    (newer : sources.Pairwise fun es fs =>
      ∀ c ∈ es, ∀ d ∈ fs, c.key.userKey = d.key.userKey → d.key.seq < c.key.seq) (u : Bytes) :
    (∀ e, (scanAll seq ∅ sources)[u]? = some e → IsVisible sources.flatten seq u e) ∧
      ((scanAll seq ∅ sources)[u]? = none
        ↔ ∀ e ∈ sources.flatten, e.key.userKey = u → seq < e.key.seq) := by
  have hget : (scanAll seq ∅ sources)[u]? = visible sources.flatten seq u := by
    rw [getElem?_scanAll]
    simp
  rw [hget]
  refine ⟨fun e he => isVisible_of_descending (List.pairwise_flatten.mpr ⟨fun es hes => ?_, ?_⟩) he,
    visible_eq_none⟩
  · refine (sorted es hes).imp fun {c d} h hkey => ?_
    rcases h with hlt | ⟨-, hle⟩
    · exact absurd hkey hlt.ne
    · exact hle
  · exact newer.imp fun h c hc d hd hkey => (h c hc d hd hkey).le

/-- Two sources that share a user key. -/
theorem scanAll_newest_two :
    let sources : List (List (Entry VLogEntryInfo)) :=
      [[⟨.ofWrite [1] 5 .kTypeValue, .zero⟩, ⟨.ofWrite [1] 3 .kTypeDeletion, .zero⟩],
        [⟨.ofWrite [1] 2 .kTypeValue, .zero⟩, ⟨.ofWrite [2] 1 .kTypeValue, .zero⟩]]
    ∀ e, (scanAll 4 ∅ sources)[([1] : Bytes)]? = some e → IsVisible sources.flatten 4 [1] e := by
  intro sources
  exact (scanAll_newest 4 (by decide) (by decide) [1]).1

end KeyMap

/-! ## Tables -/

/-- The version that `FindInBlock` answers from. -/
def selectInEntries {α : Type} (query : InternalKey) : List (Entry α) → Option (Entry α)
  | [] => none
  | e :: es =>
      match strCompare query.userKey e.key.userKey with
      | .lt => none
      | .eq => if e.key.seq ≤ query.seq then some e else none
      | .gt => selectInEntries query es

/-- The version that `FilterInIndex` and `FindInBlock` answer from. -/
def SSTFile.select (t : SSTFile VLogEntryInfo) (query : InternalKey) :
    Option (Entry VLogEntryInfo) :=
  let blocks := tableBlocks t.entries
  match findBlock query (indexKeys t.largest blocks) blocks with
  | none => none
  | some blk => selectInEntries query blk

theorem findInEntries_eq_select (query : InternalKey) (es : List (Entry VLogEntryInfo)) :
    findInEntries query es = sstAnswer (selectInEntries query es) := by
  induction es with
  | nil => rfl
  | cons e es ih =>
      rw [findInEntries, selectInEntries]
      cases strCompare query.userKey e.key.userKey with
      | lt => rfl
      | eq =>
          by_cases hseq : e.key.seq ≤ query.seq
          · simp [hseq, sstAnswer]
          · simp [hseq, sstAnswer]
      | gt => exact ih

theorem readTable_eq_select (t : SSTFile VLogEntryInfo) (query : InternalKey) :
    readTable t query = sstAnswer (t.select query) := by
  rw [readTable, SSTFile.select]
  cases findBlock query (indexKeys t.largest (tableBlocks t.entries)) (tableBlocks t.entries) with
  | none => rfl
  | some blk => exact findInEntries_eq_select query blk

section Blocks

variable {α : Type} {query : InternalKey} {q : ℕ} {u : Bytes}

/-- `FindInBlock` looks at the newest version of the block, and at no other. -/
theorem selectInEntries_eq {es : List (Entry α)} (sorted : StrictlySorted es) (q : ℕ) (u : Bytes) :
    selectInEntries (queryKey q u) es
      = (lookup es u).filter fun e => decide (e.key.seq ≤ q) := by
  induction es with
  | nil => rfl
  | cons e es ih =>
      obtain ⟨he, hes⟩ := List.pairwise_cons.mp sorted
      rw [selectInEntries, queryKey_userKey, queryKey_seq]
      rcases lt_trichotomy u e.key.userKey with hlt | heq | hgt
      · have hnone : lookup (e :: es) u = none := by
          refine lookup_eq_none.mpr fun d hd hu => ?_
          rcases List.mem_cons.mp hd with rfl | hd
          · exact hlt.ne' hu
          · exact absurd (hu ▸ InternalKey.userKey_le_of_le (he d hd).le) (not_le.mpr hlt)
        simp [strCompare_eq_lt.mpr hlt, hnone]
      · rw [strCompare_eq_eq.mpr heq, lookup_cons_of_eq heq.symm, Option.filter_some]
        simp
      · rw [strCompare_eq_gt.mpr hgt, lookup_cons_of_ne hgt.ne]
        exact ih hes

/-- In a sorted block some entry is not before a key exactly when the last one is not. -/
theorem exists_ge_iff_last {blk : List (Entry α)} (sorted : StrictlySorted blk) {e : Entry α}
    (last : blk.getLast? = some e) : (∃ d ∈ blk, query ≤ d.key) ↔ query ≤ e.key := by
  refine ⟨?_, fun h => ⟨e, List.mem_of_getLast? last, h⟩⟩
  rintro ⟨d, hd, hle⟩
  obtain ⟨init, rfl⟩ := List.getLast?_eq_some_iff.mp last
  rcases List.mem_append.mp hd with hd | hd
  · exact hle.trans ((List.pairwise_append.mp sorted).2.2 d hd e (by simp)).le
  · rwa [List.mem_singleton.mp hd] at hle

/-- `FilterInIndex` finds the first block with an entry that is not before the query. -/
theorem findBlock_eq_find {blocks : List (List (Entry α))} (nonempty : ∀ blk ∈ blocks, blk ≠ [])
    (sorted : StrictlySorted blocks.flatten) {largest : InternalKey}
    (last : ∀ e, blocks.flatten.getLast? = some e → e.key = largest) :
    findBlock query (indexKeys largest blocks) blocks
      = blocks.find? fun blk => blk.any fun e => decide (query ≤ e.key) := by
  induction blocks with
  | nil => rfl
  | cons blk blocks ih =>
      have hflat := sorted
      rw [List.flatten_cons, StrictlySorted, List.pairwise_append] at hflat
      obtain ⟨e, hlast⟩ : ∃ e, blk.getLast? = some e :=
        ⟨_, List.getLast?_eq_getLast_of_ne_nil (nonempty blk List.mem_cons_self)⟩
      have hany : (blk.any fun e => decide (query ≤ e.key)) = decide (query ≤ e.key) := by
        rw [Bool.eq_iff_iff, List.any_eq_true, decide_eq_true_iff,
          ← exists_ge_iff_last hflat.1 hlast]
        simp
      obtain ⟨keys, hkeys, hrest⟩ : ∃ keys, indexKeys largest (blk :: blocks) = e.key :: keys ∧
          keys = indexKeys largest blocks := by
        cases blocks with
        | nil => exact ⟨[], by rw [indexKeys, last e (by simpa using hlast)], rfl⟩
        | cons blk' blocks => exact ⟨_, by rw [indexKeys, hlast]; rfl, rfl⟩
      have htail : findBlock query keys blocks
          = blocks.find? fun blk => blk.any fun e => decide (query ≤ e.key) := by
        rw [hrest]
        refine ih (fun b hb => nonempty b (List.mem_cons_of_mem _ hb)) hflat.2.1 fun d hd => ?_
        refine last d ?_
        rw [List.flatten_cons, List.getLast?_append, hd]
        rfl
      rw [hkeys, findBlock, List.find?_cons, hany]
      by_cases hle : query ≤ e.key
      · simp [hle]
      · simp [hle, htail]

end Blocks

/-! ## When the paths select the visible version -/

section Paths

variable {q : ℕ}

/-- No value has the sequence number `q`. -/
def NoValueAt (q : ℕ) (es : List (Entry VLogEntryInfo)) : Prop :=
  ∀ e ∈ es, e.key.seq = q → e.key.type = .kTypeDeletion

/-- No block holds, of one user key, a version newer than `q` and one that is not. -/
def Separated (q : ℕ) (blocks : List (List (Entry VLogEntryInfo))) : Prop :=
  ∀ blk ∈ blocks, ∀ d ∈ blk, ∀ e ∈ blk, d.key.userKey = e.key.userKey →
    e.key.seq ≤ q → d.key.seq ≤ q

/-- Tags as `WriteImpl` builds them. -/
def TagsWritten (es : List (Entry VLogEntryInfo)) : Prop :=
  ∀ e ∈ es, e.key.tag = e.key.seq * 256 + e.key.type.code

/-- Without a value at `q` a query key separates the versions newer than `q` from the
others. -/
theorem tag_le_iff {es : List (Entry VLogEntryInfo)} (tags : TagsWritten es)
    (novalue : NoValueAt q es) {e : Entry VLogEntryInfo} (mem : e ∈ es) :
    e.key.tag ≤ q * 256 ↔ e.key.seq ≤ q := by
  have htag := tags e mem
  rcases lt_trichotomy e.key.seq q with hlt | heq | hgt
  · have hcode : e.key.type.code < 256 := by cases e.key.type <;> decide
    exact iff_of_true (by omega) hlt.le
  · rw [novalue e mem heq] at htag
    exact iff_of_true (by simp only [ValueType.code] at htag; omega) heq.le
  · exact iff_of_false (by omega) (not_le.mpr hgt)

/-- **`MemTable::get` selects the visible versions exactly when no value has the sequence
number of the query.** -/
theorem MemTable.select_iff {m : MemTable} (sorted : StrictlySorted m.entries)
    (tags : TagsWritten m.entries) (distinct : (m.entries.map fun e => e.key.seq).Nodup)
    (fit : ∀ e ∈ m.entries, QueryFits e.key.userKey) :
    (∀ u, QueryFits u → m.select (queryKey q u) = visible m.entries q u)
      ↔ NoValueAt q m.entries := by
  constructor
  · intro hsel e he hq
    by_contra htype
    have hvalue : e.key.type = .kTypeValue := by
      cases h : e.key.type with
      | kTypeValue => rfl
      | kTypeDeletion => exact absurd h htype
    have hvisible : visible m.entries q e.key.userKey = some e :=
      (selects_visible sorted distinct q _ e).mpr ⟨he, rfl, hq.le, fun d _ _ hd => hq ▸ hd⟩
    have hfound := (hsel e.key.userKey (fit e he)).trans hvisible
    rw [MemTable.select_eq_find sorted] at hfound
    have hle := List.find?_some hfound
    have htag := tags e he
    simp only [decide_eq_true_eq, true_and, hvalue, hq, ValueType.code] at hle htag
    omega
  · intro novalue u _
    rw [MemTable.select_eq_find sorted, visible]
    refine List.find?_congr fun e he => ?_
    rw [decide_eq_decide, tag_le_iff tags novalue he]

theorem queryKey_mono {k1 k2 : Bytes} (q : ℕ) (le : k1 ≤ k2) : queryKey q k1 ≤ queryKey q k2 := by
  rcases le.lt_or_eq with hlt | rfl
  · exact (InternalKey.lt_of_userKey_lt hlt).le
  · exact le_rfl

/-- A range iteration yields user keys of its range. -/
theorem MemTable.mem_range {m : MemTable} (sorted : StrictlySorted m.entries) {k1 k2 : Bytes}
    (le : k1 ≤ k2) {e : Entry VLogEntryInfo}
    (mem : e ∈ m.range (queryKey q k1) (queryKey q k2)) :
    k1 ≤ e.key.userKey ∧ e.key.userKey ≤ k2 := by
  obtain ⟨pre, post, -, -, hrange, -⟩ := MemTable.range_split sorted (queryKey_mono q le)
  obtain ⟨hge, hle⟩ := hrange e mem
  exact ⟨InternalKey.userKey_le_of_le hge, hle⟩

/-- A range iteration yields the visible versions of a key of its range, when none of its values
has the sequence number of the query. -/
theorem MemTable.visible_range_of_key {m : MemTable} (sorted : StrictlySorted m.entries)
    (tags : TagsWritten m.entries) {k1 k2 u : Bytes}
    (novalue : ∀ e ∈ m.entries, e.key.userKey = u → NoValueAt q [e]) (le : k1 ≤ u) (le' : u ≤ k2) :
    visible (m.range (queryKey q k1) (queryKey q k2)) q u = visible m.entries q u := by
  obtain ⟨pre, post, hsplit, hpre, -, hpost⟩ :=
    MemTable.range_split sorted (queryKey_mono q (le.trans le'))
  have hnone : visible pre q u = none := by
    refine visible_eq_none.mpr fun e he hu => ?_
    by_contra hle
    have hmem : e ∈ m.entries := by rw [hsplit]; simp [he]
    have htags : TagsWritten [e] := by simpa [TagsWritten] using tags e hmem
    have htag := (tag_le_iff htags (novalue e hmem hu) (List.mem_singleton_self e)).mpr (not_lt.mp hle)
    rcases InternalKey.lt_iff.mp (hpre e he) with hlt | ⟨-, hlt⟩
    · exact absurd (hu ▸ hlt) (not_lt.mpr le)
    · exact absurd htag (not_le.mpr hlt)
  rw [hsplit, visible_append, hnone, Option.none_or, visible_append]
  cases hrange : visible (m.range (queryKey q k1) (queryKey q k2)) q u with
  | some e => rfl
  | none =>
      refine (visible_eq_none.mpr fun e he hu => ?_).symm
      rcases hpost e he with hlt | ⟨d, hd, hdu, hge, hlt⟩
      · exact absurd (hu ▸ hlt) (not_lt.mpr le')
      · -- A version of the upper end lies in the range, and it is not newer than `q`.
        have hdk : d.key.userKey = u := by
          refine le_antisymm ?_ ?_
          · exact hu ▸ InternalKey.userKey_le_of_le hlt.le
          · exact hdu ▸ le'
        have hdq : d.key.seq ≤ q := by
          simpa using InternalKey.seq_le_of_le hge hdu.symm
        exact absurd (visible_eq_none.mp hrange d hd hdk) (not_lt.mpr hdq)

/-- A range iteration yields the visible versions of its range. -/
theorem MemTable.visible_range {m : MemTable} (sorted : StrictlySorted m.entries)
    (tags : TagsWritten m.entries) (novalue : NoValueAt q m.entries) {k1 k2 u : Bytes}
    (le : k1 ≤ u) (le' : u ≤ k2) :
    visible (m.range (queryKey q k1) (queryKey q k2)) q u = visible m.entries q u :=
  MemTable.visible_range_of_key sorted tags
    (fun e he _ => by simpa [NoValueAt] using novalue e he) le le'

/-- **A range iteration followed by `Scan` selects the visible versions of its range**, the
ends included, when no value has the sequence number of the query. -/
theorem MemTable.scan_range {m : MemTable} (sorted : StrictlySorted m.entries)
    (tags : TagsWritten m.entries) (novalue : NoValueAt q m.entries) {k1 k2 u : Bytes}
    (le : k1 ≤ u) (le' : u ≤ k2) :
    (KeyMap.scan q ∅ (m.range (queryKey q k1) (queryKey q k2)))[u]? = visible m.entries q u := by
  rw [KeyMap.getElem?_scan, MemTable.visible_range sorted tags novalue le le',
    Std.TreeMap.getElem?_emptyc, Option.none_or]

/-- A user key whose newest version is not newer than `q` is seen at that version. -/
theorem visible_of_lookup {es : List (Entry VLogEntryInfo)} {u : Bytes} {d : Entry VLogEntryInfo}
    (h : lookup es u = some d) (hq : d.key.seq ≤ q) : visible es q u = some d := by
  obtain ⟨hu, pre, post, hsplit, hpre⟩ := List.find?_eq_some_iff_append.mp h
  refine List.find?_eq_some_iff_append.mpr ⟨by simpa [hq] using hu, pre, post, hsplit, ?_⟩
  intro e he
  have hne : e.key.userKey ≠ u := by simpa using hpre e he
  simp [hne]

section Blocks

variable {blocks : List (List (Entry VLogEntryInfo))} {u : Bytes}

/-- The version found in the first block with an entry that is not before the query. -/
def selectInBlocks (query : InternalKey) (blocks : List (List (Entry VLogEntryInfo))) :
    Option (Entry VLogEntryInfo) :=
  (blocks.find? fun blk => blk.any fun e => decide (query ≤ e.key)).bind (selectInEntries query)

/-- Blocks that mix newer and older versions of a user key hide the older ones. -/
theorem separated_of_selectInBlocks (sorted : StrictlySorted blocks.flatten)
    (reach : ∀ e ∈ blocks.flatten, e.key.seq ≤ q → queryKey q e.key.userKey ≤ e.key)
    (hsel : ∀ e ∈ blocks.flatten, selectInBlocks (queryKey q e.key.userKey) blocks
      = visible blocks.flatten q e.key.userKey) :
    Separated q blocks := by
  intro blk hmem d hd e he hu hq
  by_contra hnewer
  have hflat : e ∈ blocks.flatten := List.mem_flatten.mpr ⟨blk, hmem, he⟩
  have hblk : StrictlySorted blk := (List.pairwise_flatten.mp sorted).1 blk hmem
  have hbefore : d.key < queryKey q e.key.userKey := by
    refine InternalKey.le_of_seq_lt hu ?_
    rw [queryKey_seq]
    exact not_le.mp hnewer
  -- The index leads to this block: the blocks before it end before the query.
  have hfind : (blocks.find? fun b => b.any fun c => decide (queryKey q e.key.userKey ≤ c.key))
      = some blk := by
    obtain ⟨pre, post, hsplit⟩ := List.append_of_mem hmem
    refine List.find?_eq_some_iff_append.mpr ⟨?_, pre, post, hsplit, fun b hb => ?_⟩
    · exact List.any_eq_true.mpr ⟨e, he, decide_eq_true (reach e hflat hq)⟩
    · rw [Bool.not_eq_true', List.any_eq_false]
      intro c hc hle
      have hcd : c.key < d.key := by
        have hcross := (List.pairwise_flatten.mp sorted).2
        rw [hsplit] at hcross
        exact (List.pairwise_append.mp hcross).2.2 b hb blk List.mem_cons_self c hc d hd
      exact absurd (of_decide_eq_true hle) (not_le.mpr (hcd.trans hbefore))
  obtain ⟨c, hc⟩ : ∃ c, lookup blk e.key.userKey = some c := by
    rw [← Option.ne_none_iff_exists']
    exact fun hnone => lookup_eq_none.mp hnone e he rfl
  have hcq : ¬ c.key.seq ≤ q := by
    have hmax := (lookup_isNewest hblk hc).2.2 d hd hu
    exact fun hle => hnewer ((Nat.div_le_div_right hmax).trans hle)
  have hnone : visible blocks.flatten q e.key.userKey = none := by
    rw [← hsel e hflat, selectInBlocks, hfind, Option.bind_some, selectInEntries_eq hblk, hc]
    simp [Option.filter, hcq]
  exact absurd (visible_eq_none.mp hnone e hflat rfl) (not_lt.mpr hq)

/-- In separated blocks the visible version is found. -/
theorem selectInBlocks_of_separated (sorted : StrictlySorted blocks.flatten)
    (reach : ∀ e ∈ blocks.flatten, e.key.seq ≤ q → queryKey q e.key.userKey ≤ e.key)
    (separated : Separated q blocks) (u : Bytes) :
    selectInBlocks (queryKey q u) blocks = visible blocks.flatten q u := by
  rw [selectInBlocks]
  cases hfind : blocks.find? fun blk => blk.any fun e => decide (queryKey q u ≤ e.key) with
  | none =>
      refine (visible_eq_none.mpr fun e he hu => ?_).symm
      by_contra hle
      have hge := reach e he (not_lt.mp hle)
      obtain ⟨blk, hmem, he⟩ := List.mem_flatten.mp he
      exact List.find?_eq_none.mp hfind blk hmem
        (List.any_eq_true.mpr ⟨e, he, decide_eq_true (hu ▸ hge)⟩)
  | some blk =>
      obtain ⟨hany, pre, post, hsplit, hpre⟩ := List.find?_eq_some_iff_append.mp hfind
      obtain ⟨c, hc, hle⟩ := List.any_eq_true.mp hany
      have hle := of_decide_eq_true hle
      have hmem : blk ∈ blocks := by rw [hsplit]; simp
      have hblk : StrictlySorted blk := (List.pairwise_flatten.mp sorted).1 blk hmem
      have hentries : blocks.flatten = pre.flatten ++ (blk ++ post.flatten) := by
        rw [hsplit]
        simp
      have hbefore : visible pre.flatten q u = none := by
        refine visible_eq_none.mpr fun e he hu => ?_
        by_contra hq
        have hge := reach e (hentries ▸ List.mem_append_left _ he) (not_lt.mp hq)
        obtain ⟨b, hb, he⟩ := List.mem_flatten.mp he
        have hno := hpre b hb
        rw [Bool.not_eq_true', List.any_eq_false] at hno
        exact hno e he (decide_eq_true (hu ▸ hge))
      -- Of a version behind the block there is one in the block that is not newer than `q`.
      have hbehind : ∀ e ∈ post.flatten, e.key.userKey = u →
          c.key.userKey = u ∧ c.key.seq ≤ q := by
        intro e he hu
        have hlt : c.key < e.key := by
          have htail := (List.pairwise_append.mp (hentries ▸ sorted)).2.1
          exact (List.pairwise_append.mp htail).2.2 c hc e he
        have hcu : c.key.userKey = u :=
          le_antisymm (hu ▸ InternalKey.userKey_le_of_le hlt.le) (InternalKey.userKey_le_of_le hle)
        exact ⟨hcu, by simpa using InternalKey.seq_le_of_le hle hcu.symm⟩
      rw [Option.bind_some, selectInEntries_eq hblk, hentries, visible_append, hbefore,
        Option.none_or, visible_append]
      cases hlook : lookup blk u with
      | none =>
          have hnone : visible blk q u = none :=
            visible_eq_none.mpr fun e he hu => absurd hu (lookup_eq_none.mp hlook e he)
          have hpost : visible post.flatten q u = none := by
            refine visible_eq_none.mpr fun e he hu => ?_
            exact absurd (hbehind e he hu).1 (lookup_eq_none.mp hlook c hc)
          rw [hnone, hpost]
          rfl
      | some d =>
          obtain ⟨hd, hdu, -⟩ := lookup_isNewest hblk hlook
          by_cases hdq : d.key.seq ≤ q
          · rw [visible_of_lookup hlook hdq]
            simp [Option.filter, hdq]
          · have hnone : visible blk q u = none := by
              refine visible_eq_none.mpr fun e he hu => ?_
              by_contra hq
              exact hdq (separated blk hmem d hd e he (hdu.trans hu.symm) (not_lt.mp hq))
            have hpost : visible post.flatten q u = none := by
              refine visible_eq_none.mpr fun e he hu => ?_
              obtain ⟨hcu, hcq⟩ := hbehind e he hu
              exact absurd (separated blk hmem d hd c hc (hdu.trans hcu.symm) hcq) hdq
            rw [hnone, hpost]
            simp [Option.filter, hdq]

end Blocks

/-- The index of a table leads to the first block with an entry that is not before the
query. -/
theorem SSTFile.select_eq_selectInBlocks {t : SSTFile VLogEntryInfo}
    (sorted : StrictlySorted t.entries)
    (last : ∀ e, t.entries.getLast? = some e → e.key = t.largest) (query : InternalKey) :
    t.select query = selectInBlocks query (tableBlocks t.entries) := by
  have hflat : (tableBlocks t.entries).flatten = t.entries := flatten_tableBlocks t.entries
  have hsorted : StrictlySorted (tableBlocks t.entries).flatten := by rwa [hflat]
  rw [SSTFile.select, findBlock_eq_find (tableBlocks_nonempty _) hsorted (by rwa [hflat]),
    selectInBlocks]
  cases (tableBlocks t.entries).find? fun blk => blk.any fun e => decide (query ≤ e.key) with
  | none => rfl
  | some blk => rfl

/-- **`FilterInIndex` and `FindInBlock` select the visible versions exactly when every block
is `Separated`**, where no value has the sequence number of the query. -/
theorem SSTFile.select_iff {t : SSTFile VLogEntryInfo} (sorted : StrictlySorted t.entries)
    (tags : TagsWritten t.entries) (novalue : NoValueAt q t.entries)
    (last : ∀ e, t.entries.getLast? = some e → e.key = t.largest)
    (fit : ∀ e ∈ t.entries, QueryFits e.key.userKey) :
    (∀ u, QueryFits u → t.select (queryKey q u) = visible t.entries q u)
      ↔ Separated q (tableBlocks t.entries) := by
  have hflat : (tableBlocks t.entries).flatten = t.entries := flatten_tableBlocks t.entries
  have hsorted : StrictlySorted (tableBlocks t.entries).flatten := by rwa [hflat]
  have hselect : ∀ u, t.select (queryKey q u)
      = selectInBlocks (queryKey q u) (tableBlocks t.entries) :=
    fun u => SSTFile.select_eq_selectInBlocks sorted last _
  have hreach : ∀ e ∈ (tableBlocks t.entries).flatten, e.key.seq ≤ q →
      queryKey q e.key.userKey ≤ e.key := by
    intro e he hq
    rw [hflat] at he
    exact InternalKey.le_iff.mpr (.inr ⟨rfl, (tag_le_iff tags novalue he).mpr hq⟩)
  constructor
  · intro hsel
    refine separated_of_selectInBlocks hsorted hreach fun e he => ?_
    rw [← hselect, hsel _ (fit e (hflat ▸ he)), hflat]
  · intro hsep u _
    rw [hselect, selectInBlocks_of_separated hsorted hreach hsep, hflat]

end Paths

/-! ## The bytes behind a table -/

/-- `FindInBlock` on the bytes of a block answers from the version `selectInEntries` finds. -/
theorem findInBlock_eq_select {blk : List (Entry VLogEntryInfo)}
    (locations : ∀ e ∈ blk, e.value.Fits) (fits : EntriesFit (storedEntries blk))
    (ik : InternalKey) :
    findInBlock (blockContents (storedEntries blk)) ik .zero
      = sstAnswer (selectInEntries ik blk) := by
  -- the bytes of the block are scanned entry by entry
  have hscan : findInBlock (blockContents (storedEntries blk)) ik .zero
      = scanEntries (fun p => findEntry ik .zero (entryBytes p)) (.fail .kNotFound)
          ((storedEntries blk).map Entry.toBlock) := by
    refine scanBlock_blockBytes ?_ (fun _ _ => rfl) (length_le_blockBytes _)
    simpa using fits.size
  rw [hscan]
  clear hscan
  induction blk with
  | nil => rfl
  | cons e blk ih =>
      have ih := ih (fun d hd => locations d (List.mem_cons_of_mem _ hd)) fits.cons
      set d := e.map VLogEntryInfo.encode
      have hsize : EntryFits d.toBlock := fits.size d List.mem_cons_self
      have htag : e.key.tag < 2 ^ 64 := fits.tag d List.mem_cons_self
      have hkey : entryKey (entryBytes d.toBlock) = .ok e.key.encode := entryKey_entryBytes hsize
      have hvalue : entryValue (entryBytes d.toBlock) = .ok e.value.encode :=
        entryValue_entryBytes hsize
      have hlocation := VLogEntryInfo.decode_encode (locations e List.mem_cons_self)
      -- what the reader does at one entry, by the order of the user keys
      have hfind : findEntry ik .zero (entryBytes d.toBlock) =
          match strCompare ik.userKey e.key.userKey with
          | .lt => .fail .kNotFound
          | .eq =>
              if e.key.seq ≤ ik.seq then
                if e.key.type = .kTypeValue then .ok (some e.value) else .ok (some .zero)
              else .fail .kNotFound
          | .gt => .ok none := by
        rw [findEntry, hkey]
        cases hcompare : strCompare ik.userKey e.key.userKey <;>
          simp only [Outcome.ok_bind, InternalKey.decode_encode _ htag, Outcome.ofOption_some,
            hvalue, hlocation, hcompare]
      have hcons : (storedEntries (e :: blk)).map Entry.toBlock
          = d.toBlock :: (storedEntries blk).map Entry.toBlock := rfl
      rw [hcons, scanEntries, hfind, selectInEntries]
      cases strCompare ik.userKey e.key.userKey with
      | lt => rfl
      | eq =>
          by_cases hseq : e.key.seq ≤ ik.seq
          · by_cases htype : e.key.type = .kTypeValue
            · simp [hseq, htype, sstAnswer]
            · simp [hseq, htype, sstAnswer]
          · simp [hseq, sstAnswer]
      | gt => simpa using ih

/-- `FilterInIndex` on the bytes of an index finds the first block with an entry that is not
before the query, or no block. -/
theorem filterInIndex_eq_find (crc32c : Bytes → ℕ) {blocks : List (List (Entry VLogEntryInfo))}
    (nonempty : ∀ blk ∈ blocks, blk ≠ []) (sorted : StrictlySorted blocks.flatten)
    (sizes : ∀ e ∈ blocks.flatten, e.key.userKey.length + 32 < 2 ^ 32)
    (tags : ∀ e ∈ blocks.flatten, e.key.tag < 2 ^ 64)
    (small : (dataBytes crc32c (blocks.map storedEntries)).length < 2 ^ 64) (ik : InternalKey) :
    let result := filterInIndex (blockBytes (indexEntries 0 (blocks.map storedEntries))) ik
    let found := blocks.find? fun blk => blk.any fun e => decide (ik ≤ e.key)
    (result = .fail .kNotFound ∧ found = none) ∨
      ∃ pre blk post, blocks = pre ++ blk :: post ∧ found = some blk ∧
        result = .ok ⟨(dataBytes crc32c (pre.map storedEntries)).length,
          (blockContents (storedEntries blk)).length⟩ := by
  have hstored : ∀ e ∈ (blocks.map storedEntries).flatten,
      ∃ d ∈ blocks.flatten, d.map VLogEntryInfo.encode = e := by
    intro e he
    rw [flatten_map_storedEntries] at he
    exact List.mem_map.mp he
  have hne : ∀ blk ∈ blocks.map storedEntries, blk ≠ [] := by
    intro blk hblk
    obtain ⟨b, hb, rfl⟩ := List.mem_map.mp hblk
    simpa [storedEntries] using nonempty b hb
  have hsizes : ∀ e ∈ (blocks.map storedEntries).flatten, e.key.userKey.length + 32 < 2 ^ 32 := by
    intro e he
    obtain ⟨d, hd, rfl⟩ := hstored e he
    exact sizes d hd
  have htags : ∀ e ∈ (blocks.map storedEntries).flatten, e.key.tag < 2 ^ 64 := by
    intro e he
    obtain ⟨d, hd, rfl⟩ := hstored e he
    exact tags d hd
  -- Blocks that end before the query hold no entry at or behind it.
  have hends : ∀ blk ∈ blocks,
      (∀ e, (storedEntries blk).getLast? = some e → e.key < ik) →
        (blk.any fun e => decide (ik ≤ e.key)) = false := by
    intro blk hblk hend
    rw [List.any_eq_false]
    intro e he hle
    obtain ⟨d, hlast⟩ : ∃ d, blk.getLast? = some d :=
      ⟨_, List.getLast?_eq_getLast_of_ne_nil (nonempty blk hblk)⟩
    have hlt := hend (d.map VLogEntryInfo.encode) (by simp [storedEntries, hlast])
    have hge := (exists_ge_iff_last ((List.pairwise_flatten.mp sorted).1 blk hblk) hlast).mp
      ⟨e, he, of_decide_eq_true hle⟩
    exact absurd hge (not_le.mpr hlt)
  have hindex : filterInIndex (blockBytes (indexEntries 0 (blocks.map storedEntries))) ik
      = scanEntries (fun p => filterEntry ik (entryBytes p)) (.fail .kNotFound)
          (indexEntries 0 (blocks.map storedEntries)) :=
    scanBlock_blockBytes (indexEntries_fit hne hsizes) (fun _ _ => rfl) (length_le_blockBytes _)
  intro result found
  rcases scanEntries_indexEntries crc32c hne hsizes htags ik
      (show 0 + (dataBytes crc32c (blocks.map storedEntries)).length < 2 ^ 64 by omega)
    with ⟨hres, hall⟩ | ⟨pre', blk', post', e, hsplit, hpre, hlast, hle, hres⟩
  · refine .inl ⟨hindex.trans hres, List.find?_eq_none.mpr fun blk hblk => ?_⟩
    simp [hends blk hblk (hall _ (List.mem_map_of_mem hblk))]
  · obtain ⟨pre, rest, rfl, rfl, hrest⟩ := List.map_eq_append_iff.mp hsplit
    obtain ⟨blk, post, rfl, rfl, rfl⟩ := List.map_eq_cons_iff.mp hrest
    refine .inr ⟨pre, blk, post, rfl, ?_, ?_⟩
    · refine List.find?_eq_some_iff_append.mpr ⟨?_, pre, post, rfl, fun b hb => ?_⟩
      · obtain ⟨d, hd, rfl⟩ := List.mem_map.mp (List.mem_of_getLast? hlast)
        exact List.any_eq_true.mpr ⟨d, hd, decide_eq_true hle⟩
      · simp [hends b (List.mem_append_left _ hb) (hpre _ (List.mem_map_of_mem hb))]
    · rw [Nat.zero_add] at hres
      exact hindex.trans hres

/-- **Reading the bytes of a table answers from the version that `SSTFile.select` finds**,
whatever the sequence number of the query. -/
theorem readOne_eq_select {crc32c : Bytes → ℕ}
    (findByModel : Bytes → InternalKey → Outcome (ℕ × ℕ)) {t : SSTFile VLogEntryInfo}
    (ne : t.entries ≠ []) (sorted : StrictlySorted t.entries)
    (last : ∀ e, t.entries.getLast? = some e → e.key = t.largest)
    (locations : ∀ e ∈ t.entries, e.value.Fits) (fits : TableFits crc32c (storedEntries t.entries))
    (tags : ∀ e ∈ t.entries, e.key.tag < 2 ^ 64) {q : ℕ} (q_le : q ≤ kMaxSequenceNumber)
    (u : Bytes) :
    readOne findByModel (tableFile crc32c (storedEntries t.entries))
      (tableFile crc32c (storedEntries t.entries)).length (queryKey q u).encode .zero
      = sstAnswer (t.select (queryKey q u)) := by
  obtain ⟨filter, -, hmatch, hfile⟩ := tableBlocks_layout crc32c ne
  have hselect := SSTFile.select_eq_selectInBlocks sorted last (queryKey q u)
  have hnonempty := tableBlocks_nonempty t.entries
  set blocks := tableBlocks t.entries
  have hflat : blocks.flatten = t.entries := flatten_tableBlocks t.entries
  have hsorted : StrictlySorted blocks.flatten := by rwa [hflat]
  have hblk : ∀ blk ∈ blocks, StrictlySorted blk := (List.pairwise_flatten.mp hsorted).1
  have hmem : ∀ blk ∈ blocks, ∀ e ∈ blk, e ∈ t.entries :=
    fun blk hblk e he => hflat ▸ List.mem_flatten.mpr ⟨blk, hblk, he⟩
  have hentry : ∀ e ∈ t.entries, e.key.userKey.length + 32 < 2 ^ 32 := by
    intro e he
    have hfit := fits.entry _ (List.mem_map_of_mem he)
    simp only [Entry.map_key, Entry.map_value, VLogEntryInfo.length_encode] at hfit
    omega
  have htag : (queryKey q u).tag < 2 ^ 64 := by
    simp only [queryKey, kMaxSequenceNumber] at q_le ⊢
    omega
  have hsmall := fits.file
  rw [hfile] at hsmall ⊢
  rw [readOne_layoutFile findByModel hsmall htag, hselect, selectInBlocks]
  -- The filter lets the key through: the index finds the block that `select` looks in.
  by_cases hmay : keyMayMatch (queryKey q u).userKey filter = true
  · rw [if_pos hmay]
    have hdata : (dataBytes crc32c (blocks.map storedEntries)).length < 2 ^ 64 := by
      rw [length_layoutFile] at hsmall
      omega
    rcases filterInIndex_eq_find crc32c hnonempty hsorted
      (fun e he => hentry e (hflat ▸ he)) (fun e he => tags e (hflat ▸ he)) hdata (queryKey q u)
      with ⟨hres, hfind⟩ | ⟨pre, blk, post, hsplit, hfind, hres⟩
    · rw [hres, hfind]
      rfl
    · have hin : blk ∈ blocks := by rw [hsplit]; simp
      have hfits : EntriesFit (storedEntries blk) := by
        refine ⟨fun e he => ?_, fun e he => ?_⟩
        · obtain ⟨d, hd, rfl⟩ := List.mem_map.mp he
          have hlen := hentry d (hmem blk hin d hd)
          simp only [EntryFits, Entry.toBlock, Entry.map_key, Entry.map_value,
            InternalKey.length_encode, VLogEntryInfo.length_encode]
          omega
        · obtain ⟨d, hd, rfl⟩ := List.mem_map.mp he
          exact tags d (hmem blk hin d hd)
      -- the range that the index gives is the bytes of that block
      have hread : readAt (layoutFile crc32c (blocks.map storedEntries) filter)
          (dataBytes crc32c (pre.map storedEntries)).length (blockContents (storedEntries blk)).length
          = blockContents (storedEntries blk) := by
        rw [hsplit, List.map_append, List.map_cons, readAt_data]
      rw [hres, hfind]
      simp only [Outcome.ok_bind, hread, Option.bind_some]
      exact findInBlock_eq_select (fun e he => locations e (hmem blk hin e he)) hfits _
  · -- A key that the filter refuses is not in the table.
    rw [if_neg hmay]
    cases hfind : blocks.find? fun blk => blk.any fun e => decide (queryKey q u ≤ e.key) with
    | none => rfl
    | some blk =>
        have hin := List.mem_of_find?_eq_some hfind
        have habsent : lookup blk u = none := by
          refine lookup_eq_none.mpr fun e he hu => hmay ?_
          rw [queryKey_userKey, ← hu]
          exact hmatch e (hmem blk hin e he)
            (Nat.lt_of_le_of_lt (Nat.le_add_right _ _) (hentry e (hmem blk hin e he)))
        rw [Option.bind_some, selectInEntries_eq (hblk blk hin), habsent]
        rfl

/-! ## The memtable and the table of a set of versions -/

/-- A version of a user key as `WriteImpl` hands it to `MemTable::put`. -/
structure KeyVersion where
  userKey : Bytes
  seq : ℕ
  type : ValueType
  location : VLogEntryInfo

/-- The entry of a version. -/
def KeyVersion.entry (v : KeyVersion) : Entry VLogEntryInfo :=
  ⟨.ofWrite v.userKey v.seq v.type, v.location⟩

@[simp] theorem KeyVersion.entry_seq (v : KeyVersion) : v.entry.key.seq = v.seq :=
  InternalKey.seq_ofWrite _ _ _

@[simp] theorem KeyVersion.entry_type (v : KeyVersion) : v.entry.key.type = v.type :=
  InternalKey.type_ofWrite _ _ _

/-- The memtable that the versions are put into, in the order of the list.  The skip list
draws `height seq` for the version `seq`. -/
def MemTable.ofVersions (height : ℕ → ℕ) (vs : List KeyVersion) : MemTable :=
  vs.foldl (fun m v => m.put v.entry.key v.location (height v.seq)) .new

/-- **The three paths select, for every user key, the version with the greatest sequence
number not above `q`**, and nothing where there is none: `MemTable::get`, the range iteration
followed by `Scan` for every range that the user key lies in, and `FilterInIndex` followed by
`FindInBlock` on the table of the memtable, where there is one.  The keys are those that a
`QueryKey` can hold. -/
def PathsSelect (height : ℕ → ℕ) (vs : List KeyVersion) (q : ℕ) : Prop :=
  let m := MemTable.ofVersions height vs
  ∀ u, QueryFits u → Selects (vs.map KeyVersion.entry) q u (m.select (queryKey q u)) ∧
    (∀ k1 k2, QueryFits k1 → QueryFits k2 → k1 ≤ u → u ≤ k2 →
      Selects (vs.map KeyVersion.entry) q u
        (KeyMap.scan q ∅ (m.range (queryKey q k1) (queryKey q k2)))[u]?) ∧
    ∀ fileNumber t, buildTable fileNumber m.entries = .ok t →
      Selects (vs.map KeyVersion.entry) q u (t.select (queryKey q u))

theorem insertEntry_perm {α : Type} (e : Entry α) (es : List (Entry α)) :
    (insertEntry e es).Perm (e :: es) := by
  induction es with
  | nil => exact .refl _
  | cons d es ih =>
      rw [insertEntry]
      split
      · exact (ih.cons d).trans (.swap e d es)
      · exact .refl _

section OfVersions

variable {height : ℕ → ℕ} {vs : List KeyVersion} {q : ℕ}

theorem MemTable.ofVersions_perm (height : ℕ → ℕ) (vs : List KeyVersion) :
    (MemTable.ofVersions height vs).entries.Perm (vs.map KeyVersion.entry) := by
  induction vs using List.reverseRecOn with
  | nil => exact .refl _
  | append_singleton vs v ih =>
      have hput : (MemTable.ofVersions height (vs ++ [v])).entries
          = insertEntry v.entry (MemTable.ofVersions height vs).entries := by
        simp only [MemTable.ofVersions, List.foldl_append, List.foldl_cons, List.foldl_nil]
        rfl
      rw [hput, List.map_append]
      exact (insertEntry_perm _ _).trans ((ih.cons _).trans (List.perm_append_singleton _ _).symm)

theorem MemTable.ofVersions_sorted (distinct : (vs.map KeyVersion.seq).Nodup) :
    StrictlySorted (MemTable.ofVersions height vs).entries := by
  induction vs using List.reverseRecOn with
  | nil => exact List.Pairwise.nil
  | append_singleton vs v ih =>
      rw [List.map_append, List.nodup_append] at distinct
      have hput : (MemTable.ofVersions height (vs ++ [v])).entries
          = insertEntry v.entry (MemTable.ofVersions height vs).entries := by
        simp only [MemTable.ofVersions, List.foldl_append, List.foldl_cons, List.foldl_nil]
        rfl
      rw [hput]
      refine sorted_insertEntry (ih distinct.1) fun d hd hkey => ?_
      obtain ⟨w, hw, rfl⟩ := List.mem_map.mp ((MemTable.ofVersions_perm height vs).mem_iff.mp hd)
      refine distinct.2.2 w.seq (List.mem_map_of_mem hw) v.seq (by simp) ?_
      simpa using congrArg InternalKey.seq hkey

theorem buildTable_fields {fileNumber : ℕ} {es : List (Entry VLogEntryInfo)}
    {t : SSTFile VLogEntryInfo} (h : buildTable fileNumber es = .ok t) :
    t.entries = es ∧ FlushKept es ∧ ∀ e, es.getLast? = some e → e.key = t.largest := by
  cases es with
  | nil => simp [buildTable] at h
  | cons d es =>
      simp only [buildTable] at h
      split at h
      · rename_i hkept
        obtain rfl := Outcome.ok.inj h
        have hlast : ∀ e, (d :: es).getLast? = some e →
            e = (d :: es).getLast (List.cons_ne_nil d es) := by
          intro e he
          rw [List.getLast?_eq_getLast_of_ne_nil (List.cons_ne_nil d es)] at he
          exact (Option.some.inj he).symm
        refine ⟨rfl, fun e he => ?_, fun e he => by rw [hlast e he]⟩
        rw [hlast e he]
        exact hkept
      · simp at h

end OfVersions

/-- A memtable whose table reaches the disk is empty or has one. -/
theorem buildTable_of_flushKept {es : List (Entry VLogEntryInfo)} (kept : FlushKept es)
    (fileNumber : ℕ) : es = [] ∨ ∃ t, buildTable fileNumber es = .ok t := by
  cases es with
  | nil => exact .inl rfl
  | cons d es =>
      refine .inr ⟨_, if_pos (kept _ ?_)⟩
      exact List.getLast?_eq_getLast_of_ne_nil (List.cons_ne_nil d es)

/-- **When the three read paths agree with the visible version.**  For every set of versions
with distinct sequence numbers, whose keys a `QueryKey` can hold, and every `q`, they do exactly
when no value has the sequence number `q` and no data block of the table, if `BuildTable` makes
one, holds, of one user key, both a version newer than `q` and one that is not. -/
theorem pathsSelect_iff {vs : List KeyVersion} (distinct : (vs.map KeyVersion.seq).Nodup)
    (fit : ∀ v ∈ vs, QueryFits v.userKey) (height : ℕ → ℕ) (q : ℕ) :
    PathsSelect height vs q ↔ (∀ v ∈ vs, v.seq = q → v.type = .kTypeDeletion) ∧
      (FlushKept (MemTable.ofVersions height vs).entries →
        Separated q (tableBlocks (MemTable.ofVersions height vs).entries)) := by
  set m := MemTable.ofVersions height vs with hm
  have hperm : m.entries.Perm (vs.map KeyVersion.entry) := MemTable.ofVersions_perm height vs
  have hsorted : StrictlySorted m.entries := MemTable.ofVersions_sorted distinct
  have hdistinct : (m.entries.map fun e => e.key.seq).Nodup := by
    refine ((hperm.map _).nodup_iff).mpr ?_
    simpa [Function.comp_def] using distinct
  have htags : TagsWritten m.entries := by
    intro e he
    obtain ⟨v, -, rfl⟩ := List.mem_map.mp (hperm.mem_iff.mp he)
    rw [KeyVersion.entry_seq, KeyVersion.entry_type]
    rfl
  have hfit : ∀ e ∈ m.entries, QueryFits e.key.userKey := by
    intro e he
    obtain ⟨v, hv, rfl⟩ := List.mem_map.mp (hperm.mem_iff.mp he)
    exact fit v hv
  have hvalue : NoValueAt q m.entries ↔ ∀ v ∈ vs, v.seq = q → v.type = .kTypeDeletion := by
    simp only [NoValueAt, hperm.mem_iff, List.forall_mem_map, KeyVersion.entry_seq,
      KeyVersion.entry_type]
  have hselects : ∀ u found, Selects (vs.map KeyVersion.entry) q u found
      ↔ found = visible m.entries q u := fun u found =>
    (Selects.congr (fun e => hperm.mem_iff.symm) found).trans (selects_iff hsorted hdistinct)
  simp only [PathsSelect, ← hm, hselects, ← hvalue]
  constructor
  · intro h
    have hno := (MemTable.select_iff hsorted htags hdistinct hfit).mp fun u hu => (h u hu).1
    refine ⟨hno, fun hkept => ?_⟩
    rcases buildTable_of_flushKept hkept 0 with hnil | ⟨t, htable⟩
    · simp [hnil, tableBlocks, cutBlocks, Separated]
    · obtain ⟨hentries, -, hlast⟩ := buildTable_fields htable
      rw [← hentries] at hsorted htags hno hlast hfit ⊢
      exact (SSTFile.select_iff hsorted htags hno hlast hfit).mp
        fun u hu => hentries ▸ (h u hu).2.2 0 t htable
  · rintro ⟨hno, hsep⟩ u hu
    refine ⟨(MemTable.select_iff hsorted htags hdistinct hfit).mpr hno u hu,
      fun k1 k2 _ _ hle hle' => MemTable.scan_range hsorted htags hno hle hle', ?_⟩
    intro fileNumber t htable
    obtain ⟨hentries, hkept, hlast⟩ := buildTable_fields htable
    have hsep := hsep hkept
    rw [← hentries] at hsorted htags hno hlast hsep hfit ⊢
    exact (SSTFile.select_iff hsorted htags hno hlast hfit).mpr hsep u hu

/-- An overwritten key and a newer key, read between their sequence numbers. -/
theorem pathsSelect_between :
    PathsSelect (fun _ => 1)
      [⟨[1], 0, .kTypeValue, .zero⟩, ⟨[1], 2, .kTypeDeletion, .zero⟩, ⟨[2], 5, .kTypeValue, .zero⟩]
      3 := by
  refine (pathsSelect_iff (by simp) (by simp [QueryFits]) _ _).mpr ⟨by simp, fun _ => ?_⟩
  intro blk hblk d hd e he hu hq
  have hmem : ∀ c ∈ blk, c ∈ _ := fun c hc =>
    (MemTable.ofVersions_perm _ _).mem_iff.mp
      (flatten_tableBlocks _ ▸ List.mem_flatten.mpr ⟨blk, hblk, hc⟩)
  have hd := hmem d hd
  have he := hmem e he
  simp only [List.map_cons, List.map_nil, List.mem_cons, List.not_mem_nil, or_false] at hd he
  rcases hd with rfl | rfl | rfl
  · simp
  · simp
  · rcases he with rfl | rfl | rfl
    · simp [KeyVersion.entry] at hu
    · simp [KeyVersion.entry] at hu
    · exact hq

/-- **Two ways to miss a version.**  A value is passed over by `MemTable::get` when the query
has its sequence number, and an older version is not found in a table behind a newer one. -/
theorem not_pathsSelect :
    ¬ PathsSelect (fun _ => 1) [⟨[1], 5, .kTypeValue, .zero⟩] 5 ∧
      ¬ PathsSelect (fun _ => 1)
        [⟨[1], 2, .kTypeValue, .zero⟩, ⟨[1], 5, .kTypeValue, .zero⟩] 3 := by
  constructor
  · intro h
    have hmiss : (MemTable.ofVersions (fun _ => 1) [⟨[1], 5, .kTypeValue, .zero⟩]).select
        (queryKey 5 [1]) = none := by decide
    have hvisible : IsVisible [KeyVersion.entry ⟨[1], 5, .kTypeValue, .zero⟩] 5 [1]
        (KeyVersion.entry ⟨[1], 5, .kTypeValue, .zero⟩) := by
      simp [IsVisible, KeyVersion.entry]
    have hfound := ((h [1] (by decide)).1 _).mpr hvisible
    rw [hmiss] at hfound
    simp at hfound
  · intro h
    set older : Entry VLogEntryInfo := KeyVersion.entry ⟨[1], 2, .kTypeValue, .zero⟩
    set newer : Entry VLogEntryInfo := KeyVersion.entry ⟨[1], 5, .kTypeValue, .zero⟩
    have hentries : (MemTable.ofVersions (fun _ => 1)
        [⟨[1], 2, .kTypeValue, .zero⟩, ⟨[1], 5, .kTypeValue, .zero⟩]).entries = [newer, older] := by
      decide
    have hbuild : buildTable 0 (MemTable.ofVersions (fun _ => 1)
        [⟨[1], 2, .kTypeValue, .zero⟩, ⟨[1], 5, .kTypeValue, .zero⟩]).entries
        = .ok ⟨0, newer.key, older.key, 0, [newer, older]⟩ := by
      have hkept : TableKept older.key [newer, older] := by decide
      rw [hentries, buildTable]
      exact if_pos hkept
    have hmiss : SSTFile.select ⟨0, newer.key, older.key, 0, [newer, older]⟩ (queryKey 3 [1])
        = none := by decide
    have hvisible : IsVisible [older, newer] 3 [1] older := by
      simp [IsVisible, older, newer, KeyVersion.entry]
    have hfound := ((h [1] (by decide)).2.2 0 ⟨0, newer.key, older.key, 0, [newer, older]⟩
      hbuild _).mpr hvisible
    rw [hmiss] at hfound
    simp at hfound

end Lsmkv
