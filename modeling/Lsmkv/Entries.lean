import Lsmkv.DbFormat

/-!
# Sorted runs of entries

Memtables, tables and the output of a compaction are all runs of entries in strictly
increasing internal key order.  `lookup` is what a point read of such a run is for: the
newest version of a user key, which in a sorted run is the first entry with that user
key (`lookup_isNewest`).
-/

namespace Lsmkv

open ByteCode

/-- An entry of a memtable, a table or a level: an internal key and what is stored
under it.  Tables store byte strings; the levels above them are described with the
location, or the value, that the bytes stand for. -/
@[ext] structure Entry (α : Type) where
  key : InternalKey
  value : α
  deriving DecidableEq, Repr

namespace Entry

/-- The same entry with its payload replaced. -/
def map {α β : Type} (f : α → β) (e : Entry α) : Entry β := ⟨e.key, f e.value⟩

@[simp] theorem map_key {α β : Type} (f : α → β) (e : Entry α) : (e.map f).key = e.key := rfl

@[simp] theorem map_value {α β : Type} (f : α → β) (e : Entry α) :
    (e.map f).value = f e.value := rfl

end Entry

/-- Entries in strictly increasing internal key order: what a table, a memtable
and the output of a merge are meant to be. -/
def StrictlySorted {α : Type} (es : List (Entry α)) : Prop :=
  es.Pairwise fun a b => a.key < b.key

/-- Being sorted is a matter of the keys. -/
theorem strictlySorted_iff_keys {α : Type} {es : List (Entry α)} :
    StrictlySorted es ↔ (es.map Entry.key).Pairwise (· < ·) := by
  rw [List.pairwise_map]
  rfl

/-! ## Looking up a user key -/

/-- The first entry with the given user key; in a sorted table this is the newest
version. -/
def lookup {α : Type} (es : List (Entry α)) (u : Bytes) : Option (Entry α) :=
  es.find? fun e => decide (e.key.userKey = u)

/-- The newest version of a user key.  Tags compare by sequence number first. -/
def IsNewest {α : Type} (es : List (Entry α)) (u : Bytes) (e : Entry α) : Prop :=
  e ∈ es ∧ e.key.userKey = u ∧ ∀ e' ∈ es, e'.key.userKey = u → e'.key.tag ≤ e.key.tag

section Lookup

variable {α : Type} {es fs : List (Entry α)} {u : Bytes} {e : Entry α}

theorem lookup_eq_none : lookup es u = none ↔ ∀ e ∈ es, e.key.userKey ≠ u := by
  simp [lookup]

theorem lookup_mem (h : lookup es u = some e) : e ∈ es := List.mem_of_find?_eq_some h

theorem lookup_userKey (h : lookup es u = some e) : e.key.userKey = u := by
  simpa using List.find?_some h

theorem lookup_cons_of_eq (h : e.key.userKey = u) : lookup (e :: es) u = some e := by
  simp [lookup, h]

theorem lookup_cons_of_ne (h : e.key.userKey ≠ u) : lookup (e :: es) u = lookup es u := by
  simp [lookup, h]

theorem lookup_append (es fs : List (Entry α)) (u : Bytes) :
    lookup (es ++ fs) u = (lookup es u).or (lookup fs u) := by
  simp [lookup, List.find?_append]

/-- **In a sorted table the first version is the newest.** -/
theorem lookup_isNewest (sorted : StrictlySorted es) (h : lookup es u = some e) :
    IsNewest es u e := by
  refine ⟨lookup_mem h, lookup_userKey h, ?_⟩
  induction es with
  | nil => simp
  | cons d es ih =>
      obtain ⟨hd, hes⟩ := List.pairwise_cons.mp sorted
      intro e' he' hu'
      by_cases hdu : d.key.userKey = u
      · obtain rfl : d = e := by simpa [lookup_cons_of_eq hdu] using h
        rcases List.mem_cons.mp he' with rfl | he'
        · exact le_rfl
        · rcases InternalKey.lt_iff.mp (hd e' he') with hlt | ⟨-, htag⟩
          · exact absurd (hdu.trans hu'.symm) hlt.ne
          · exact htag.le
      · rw [lookup_cons_of_ne hdu] at h
        rcases List.mem_cons.mp he' with rfl | he'
        · exact absurd hu' hdu
        · exact ih hes h e' he' hu'

/-- The newest version of a user key in a sorted table is the one looked up. -/
theorem lookup_of_isNewest (sorted : StrictlySorted es) (h : IsNewest es u e) :
    lookup es u = some e := by
  obtain ⟨hmem, hu, hmax⟩ := h
  obtain ⟨d, hd⟩ : ∃ d, lookup es u = some d := by
    rw [← Option.ne_none_iff_exists']
    exact fun hnone => lookup_eq_none.mp hnone e hmem hu
  obtain ⟨hdmem, hdu, hdmax⟩ := lookup_isNewest sorted hd
  have hkey : d.key = e.key :=
    InternalKey.ext (hdu.trans hu.symm) (le_antisymm (hmax d hdmem hdu) (hdmax e hmem hu))
  rw [hd]
  by_contra hne
  have hpair : es.Pairwise fun a b => a.key ≠ b.key := sorted.imp fun hlt => hlt.ne
  rcases List.pairwise_iff_getElem.mp hpair with hp
  obtain ⟨i, hi, rfl⟩ := List.mem_iff_getElem.mp hdmem
  obtain ⟨j, hj, rfl⟩ := List.mem_iff_getElem.mp hmem
  rcases lt_trichotomy i j with hij | rfl | hij
  · exact hp i j hi hj hij hkey
  · exact hne rfl
  · exact hp j i hj hi hij hkey.symm

end Lookup

end Lsmkv
