import Lsmkv.LevelCache

/-!
# Memtables

A memtable (`src/include/memtable.h`, `src/memtable.cpp`) is a skip list of records in
internal key order.  The list here is its bottom chain; which higher chains a node is on
decides how fast a search is, not what it finds.

The skip list takes its memory from an arena, and `memoryUsage` is the number of bytes
allocated: the head node, then for each record its bytes and a node of the height that
was drawn for it.

A record of a deletion is allocated with room for a location, like every record, and the
room is not written: what it holds is arbitrary, and an argument of `put`.
-/

namespace Lsmkv

open ByteCode

/-- The place of a new record in the bottom chain, behind every smaller key. -/
def insertEntry {α : Type} (e : Entry α) : List (Entry α) → List (Entry α)
  | [] => [e]
  | d :: ds => if d.key < e.key then d :: insertEntry e ds else e :: d :: ds

/-- `MemTable`. -/
structure MemTable where
  entries : List (Entry VLogEntryInfo)
  used : ℕ

namespace MemTable

/-- `MAX_LEVEL` of the skip list. -/
def maxLevel : ℕ := 16

/-- `createNode`: the size of a node on `height` chains. -/
def nodeSize (height : ℕ) : ℕ := 24 + 8 * (height - 1)

/-- A new memtable holds its head node. -/
def new : MemTable := ⟨[], nodeSize maxLevel⟩

/-- `put(seq, key, value)`: `key_size | key | seq_type | value`, and the node. -/
def put (m : MemTable) (key : InternalKey) (value : VLogEntryInfo) (height : ℕ) : MemTable where
  entries := insertEntry ⟨key, value⟩ m.entries
  used := m.used + (16 + 8 + key.userKey.length + 4) + nodeSize height

/-- `memoryUsage()`, in 32 bits. -/
def memoryUsage (m : MemTable) : ℕ := m.used % 2 ^ 32

/-- `get(query_key, res, s)`; `none` is the result `false`. -/
def get (m : MemTable) (query : InternalKey) : Option (Outcome VLogEntryInfo) :=
  match m.entries.find? fun e => decide (query ≤ e.key) with
  | none => none
  | some e =>
      if e.key.userKey = query.userKey then
        if query.seq < e.key.seq then none
        else if e.key.type = .kTypeValue then some (.ok e.value)
        else some (.fail .kNotFound)
      else none

end MemTable

/-! ## Sorted chains -/

section Insert

variable {α : Type} {e d : Entry α} {es : List (Entry α)}

theorem mem_insertEntry : d ∈ insertEntry e es ↔ d = e ∨ d ∈ es := by
  induction es with
  | nil => simp [insertEntry]
  | cons c es ih =>
      simp only [insertEntry]
      split
      · rw [List.mem_cons, ih, List.mem_cons]
        tauto
      · rw [List.mem_cons]

theorem sorted_insertEntry (sorted : StrictlySorted es) (fresh : ∀ d ∈ es, d.key ≠ e.key) :
    StrictlySorted (insertEntry e es) := by
  induction es with
  | nil => exact List.pairwise_singleton _ _
  | cons c es ih =>
      obtain ⟨hc, hes⟩ := List.pairwise_cons.mp sorted
      simp only [insertEntry]
      split
      · rename_i hlt
        refine List.pairwise_cons.mpr ⟨fun d hd => ?_,
          ih hes fun d hd => fresh d (List.mem_cons_of_mem _ hd)⟩
        rcases mem_insertEntry.mp hd with rfl | hd
        · exact hlt
        · exact hc d hd
      · rename_i hge
        have hlt : e.key < c.key :=
          lt_of_le_of_ne (not_lt.mp hge) (fresh c List.mem_cons_self).symm
        refine List.pairwise_cons.mpr ⟨fun d hd => ?_, sorted⟩
        rcases List.mem_cons.mp hd with rfl | hd
        · exact hlt
        · exact hlt.trans (hc d hd)

/-- The first record at or behind a user key is its newest version, or there is none. -/
theorem find_ge_eq_lookup (sorted : StrictlySorted es) (u : Bytes) :
    (es.find? fun e => decide (u ≤ e.key.userKey)).filter (fun e => decide (e.key.userKey = u))
      = lookup es u := by
  induction es with
  | nil => rfl
  | cons c es ih =>
      obtain ⟨hc, hes⟩ := List.pairwise_cons.mp sorted
      by_cases hle : u ≤ c.key.userKey
      · by_cases heq : c.key.userKey = u
        · simp [lookup_cons_of_eq heq, heq]
        · have hnone : lookup (c :: es) u = none := by
            refine lookup_eq_none.mpr fun d hd hu => ?_
            rcases List.mem_cons.mp hd with rfl | hd
            · exact heq hu
            · exact heq (le_antisymm (hu ▸ InternalKey.userKey_le_of_le (hc d hd).le) hle)
          simp [hnone, hle, heq]
      · have hne : c.key.userKey ≠ u := fun h => hle h.ge
        rw [List.find?_cons_of_neg (by simpa using hle), lookup_cons_of_ne hne]
        exact ih hes

end Insert

/-! ## Reading -/

/-- What a memtable answers for the newest version of a user key. -/
def memAnswer : Option (Entry VLogEntryInfo) → Option (Outcome VLogEntryInfo)
  | none => none
  | some e => if e.key.type = .kTypeValue then some (.ok e.value) else some (.fail .kNotFound)

/-- **A memtable answers with the newest version of a user key**, when the query is
newer than everything it holds. -/
theorem MemTable.get_eq_lookup {m : MemTable} (sorted : StrictlySorted m.entries) {q : ℕ}
    (newer : ∀ e ∈ m.entries, e.key.seq < q) (u : Bytes) :
    m.get (queryKey q u) = memAnswer (lookup m.entries u) := by
  have hfind : m.entries.find? (fun e => decide (queryKey q u ≤ e.key))
      = m.entries.find? fun e => decide (u ≤ e.key.userKey) :=
    List.find?_congr fun e he => by simp [queryKey_le_iff (newer e he)]
  rw [MemTable.get, hfind, ← find_ge_eq_lookup sorted u]
  cases hcase : m.entries.find? fun e => decide (u ≤ e.key.userKey) with
  | none => rfl
  | some e =>
      have hnewer : ¬ q < e.key.seq := (newer e (List.mem_of_find?_eq_some hcase)).not_gt
      by_cases heq : e.key.userKey = u
      · simp [heq, hnewer, memAnswer, Option.filter]
      · simp [heq, memAnswer, Option.filter]

end Lsmkv
