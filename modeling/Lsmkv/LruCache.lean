import Lsmkv.Lib.Recency
import Lsmkv.VLogRun

/-!
# The cache of open files

`Lru_Cache` (`src/utils/lru.h`) keeps the last few values that were used: a list of keys with their
values, the last use first, and a hash map from the keys to iterators of the list.  `Put` and `Get`
move a key to the front by erasing its node and inserting a new one, so that the iterator in the map
has to be replaced each time.

The list is a list of nodes, each with the iterator that points to it; an iterator of a node that was
erased is not used again, and the use of one is a fault.  `LruCache.Linked` says that the map has the
keys of the list, each with the iterator of its node.  What the two operations then do to the list is
`Recency.touch` and a cut behind `capacity_` nodes (`LruCache.Linked.put`, `LruCache.Linked.get`), so
the cache has the keys that were used last (`LruCache.run_lru`).  The lists of open value logs that the
model of the store works with are those of such a cache (`LruCache.initFile_spec`).

Keys are copied where the source forwards them: the only instance has numbers as keys.
-/

namespace Lsmkv

open Recency

/-! ## The cache -/

/-- A node of `lru_list_`, with the iterator that points to it. -/
structure LruNode (K V : Type) where
  iter : ℕ
  key : K
  value : V

/-- `Lru_Cache`; `nextIter` is an iterator that no node has had. -/
structure LruCache (K V : Type) where
  cache : List (K × ℕ)
  lruList : List (LruNode K V)
  capacity : ℕ
  nextIter : ℕ

namespace LruCache

variable {K V : Type} [DecidableEq K]

/-- `Lru_Cache(capacity)`. -/
def new (capacity : ℕ) : LruCache K V := ⟨[], [], capacity, 0⟩

/-- `cache_.find(key)`. -/
def find (c : LruCache K V) (key : K) : Option ℕ := (c.cache.find? fun e => e.1 = key).map Prod.snd

/-- `*it`. -/
def deref (c : LruCache K V) (it : ℕ) : Outcome (LruNode K V) :=
  Outcome.ofOption (c.lruList.find? fun n => n.iter = it)

/-- `lru_list_.erase(it)`. -/
def eraseNode (c : LruCache K V) (it : ℕ) : Outcome (LruCache K V) := do
  let _ ← c.deref it
  .ok { c with lruList := c.lruList.filter fun n => n.iter ≠ it }

/-- `cache_.erase(key)`. -/
def eraseKey (c : LruCache K V) (key : K) : LruCache K V :=
  { c with cache := c.cache.filter fun e => e.1 ≠ key }

/-- `lru_list_.push_front(..)`. -/
def pushFront (c : LruCache K V) (key : K) (value : V) : LruCache K V :=
  { c with lruList := ⟨c.nextIter, key, value⟩ :: c.lruList, nextIter := c.nextIter + 1 }

/-- `cache_[key] = lru_list_.begin()`. -/
def assignBegin (c : LruCache K V) (key : K) : Outcome (LruCache K V) := do
  let first ← Outcome.ofOption c.lruList.head?
  .ok { c with cache := (key, first.iter) :: c.cache.filter fun e => e.1 ≠ key }

/-- The first part of `Put`: an entry of the key is erased. -/
def eraseOld (c : LruCache K V) (key : K) : Outcome (LruCache K V) :=
  match c.find key with
  | some it => do
      let c ← c.eraseNode it
      .ok (c.eraseKey key)
  | none => .ok c

/-- The second part of `Put`: a full cache loses the last node; `back()` and `pop_back()`. -/
def evict (c : LruCache K V) : Outcome (LruCache K V) :=
  if c.cache.length = c.capacity then do
    let last ← Outcome.ofOption c.lruList.getLast?
    let c := c.eraseKey last.key
    .ok { c with lruList := c.lruList.dropLast }
  else .ok c

/-- `Put(key, value)`. -/
def put (c : LruCache K V) (key : K) (value : V) : Outcome (LruCache K V) := do
  let c ← c.eraseOld key
  let c ← c.evict
  (c.pushFront key value).assignBegin key

/-- `Get(key)`; `none` is the null pointer. -/
def get (c : LruCache K V) (key : K) : Outcome (Option V × LruCache K V) :=
  match c.find key with
  | none => .ok (none, c)
  | some it => do
      let node ← c.deref it
      let c ← c.eraseNode it
      let c ← (c.pushFront key node.value).assignBegin key
      let it ← Outcome.ofOption (c.find key)
      let node ← c.deref it
      .ok (some node.value, c)

/-! ## The map and the list -/

/-- The map has the keys of the list, each with the iterator of its node; no key and no iterator
occurs twice. -/
structure Linked (c : LruCache K V) : Prop where
  map : c.cache.Perm (c.lruList.map fun n => (n.key, n.iter))
  keys : (c.lruList.map LruNode.key).Nodup
  iters : (c.lruList.map LruNode.iter).Nodup
  fresh : ∀ n ∈ c.lruList, n.iter < c.nextIter

/-- The list, without the iterators. -/
def contents (c : LruCache K V) : List (K × V) := c.lruList.map fun n => (n.key, n.value)

variable {c : LruCache K V} {key : K} {value : V} {n m : LruNode K V}

omit [DecidableEq K] in
theorem Linked.length_cache (h : c.Linked) : c.cache.length = c.lruList.length := by
  rw [h.map.length_eq, List.length_map]

omit [DecidableEq K] in
theorem Linked.key_inj (h : c.Linked) (hn : n ∈ c.lruList) (hm : m ∈ c.lruList) (eq : n.key = m.key) :
    n = m := List.inj_on_of_nodup_map h.keys hn hm eq

omit [DecidableEq K] in
theorem Linked.iter_inj (h : c.Linked) (hn : n ∈ c.lruList) (hm : m ∈ c.lruList)
    (eq : n.iter = m.iter) : n = m := List.inj_on_of_nodup_map h.iters hn hm eq

/-- The map finds the node of a key. -/
theorem Linked.find_of_mem (h : c.Linked) (hn : n ∈ c.lruList) : c.find n.key = some n.iter := by
  have hmem : (n.key, n.iter) ∈ c.cache := h.map.mem_iff.mpr (List.mem_map_of_mem hn)
  cases hfind : c.cache.find? fun e => e.1 = n.key with
  | none =>
      have := List.find?_eq_none.mp hfind _ hmem
      exact absurd (decide_eq_true rfl) this
  | some e =>
      obtain ⟨m, hm, rfl⟩ := List.mem_map.mp (h.map.mem_iff.mp (List.mem_of_find?_eq_some hfind))
      have hkey : m.key = n.key := by simpa using List.find?_some hfind
      rw [find, hfind, Option.map_some, h.key_inj hm hn hkey]

/-- The map finds nothing where the list has no node. -/
theorem Linked.find_eq_none (h : c.Linked) (absent : key ∉ c.lruList.map LruNode.key) :
    c.find key = none := by
  rw [find, Option.map_eq_none_iff, List.find?_eq_none]
  intro e he hkey
  obtain ⟨m, hm, rfl⟩ := List.mem_map.mp (h.map.mem_iff.mp he)
  have hkey : m.key = key := by simpa using hkey
  exact absent (hkey ▸ List.mem_map_of_mem hm)

omit [DecidableEq K] in
theorem Linked.deref (h : c.Linked) (hn : n ∈ c.lruList) : c.deref n.iter = .ok n := by
  cases hfind : c.lruList.find? fun m => m.iter = n.iter with
  | none =>
      have := List.find?_eq_none.mp hfind _ hn
      exact absurd (decide_eq_true rfl) this
  | some m =>
      have hiter : m.iter = n.iter := by simpa using List.find?_some hfind
      obtain rfl := h.iter_inj (List.mem_of_find?_eq_some hfind) hn hiter
      rw [LruCache.deref, hfind]
      rfl

/-- The list without the node of a key. -/
theorem Linked.filter_iter (h : c.Linked) (hn : n ∈ c.lruList) :
    (c.lruList.filter fun m => m.iter ≠ n.iter) = c.lruList.filter fun m => m.key ≠ n.key := by
  refine List.filter_congr fun m hm => ?_
  have hiff : m.iter = n.iter ↔ m.key = n.key :=
    ⟨fun heq => congrArg _ (h.iter_inj hm hn heq), fun heq => congrArg _ (h.key_inj hm hn heq)⟩
  simp [hiff]

omit [DecidableEq K] in
/-- Nodes are taken out of the list together with the entries of their keys. -/
theorem Linked.restrict (h : c.Linked) {keep : List (LruNode K V)} (sub : keep.Sublist c.lruList)
    {entries : List (K × ℕ)} (map : entries.Perm (keep.map fun n => (n.key, n.iter))) :
    Linked { c with cache := entries, lruList := keep } where
  map := map
  keys := h.keys.sublist (sub.map _)
  iters := h.iters.sublist (sub.map _)
  fresh n hn := h.fresh n (sub.subset hn)

/-- The map without the entry of a key. -/
theorem Linked.filter_cache (h : c.Linked) (key : K) :
    (c.cache.filter fun e => e.1 ≠ key).Perm
      ((c.lruList.filter fun n => n.key ≠ key).map fun n => (n.key, n.iter)) := by
  have hperm := h.map.filter fun e => decide (e.1 ≠ key)
  rw [List.filter_map] at hperm
  exact hperm

/-- The node of a key is taken out, with the entry of the key. -/
theorem Linked.remove (h : c.Linked) (hn : n ∈ c.lruList) :
    Linked (eraseKey { c with lruList := c.lruList.filter fun m => m.iter ≠ n.iter } n.key) := by
  refine h.restrict List.filter_sublist ?_
  rw [h.filter_iter hn]
  exact h.filter_cache n.key

omit [DecidableEq K] in
theorem eraseNode_eq (h : c.Linked) (hn : n ∈ c.lruList) :
    c.eraseNode n.iter = .ok { c with lruList := c.lruList.filter fun m => m.iter ≠ n.iter } := by
  rw [eraseNode, h.deref hn, Outcome.ok_bind]

theorem filter_key_of_absent (absent : key ∉ c.lruList.map LruNode.key) :
    (c.lruList.filter fun n => n.key ≠ key) = c.lruList := by
  refine List.filter_eq_self.mpr fun n hn => decide_eq_true_iff.mpr fun hkey => absent ?_
  exact hkey ▸ List.mem_map_of_mem hn

theorem not_mem_filter_key : key ∉ (c.lruList.filter fun n => n.key ≠ key).map LruNode.key := by
  rintro hmem
  obtain ⟨n, hn, hkey⟩ := List.mem_map.mp hmem
  exact decide_eq_true_iff.mp (List.mem_filter.mp hn).2 hkey

/-- **The entry of a key is erased** from both, if there is one. -/
theorem Linked.eraseOld (h : c.Linked) (key : K) :
    ∃ c', c.eraseOld key = .ok c' ∧ c'.Linked ∧ c'.capacity = c.capacity ∧
      c'.lruList = c.lruList.filter fun n => n.key ≠ key := by
  by_cases hmem : key ∈ c.lruList.map LruNode.key
  · obtain ⟨n, hn, rfl⟩ := List.mem_map.mp hmem
    refine ⟨_, ?_, h.remove hn, rfl, h.filter_iter hn⟩
    rw [LruCache.eraseOld, h.find_of_mem hn]
    show (c.eraseNode n.iter >>= _) = _
    rw [eraseNode_eq h hn, Outcome.ok_bind]
  · exact ⟨c, by rw [LruCache.eraseOld, h.find_eq_none hmem], h, rfl, (filter_key_of_absent hmem).symm⟩

/-- **A full cache loses its last node.** -/
theorem Linked.evict (h : c.Linked) (positive : 0 < c.capacity) (bounded : c.lruList.length ≤ c.capacity) :
    ∃ c', c.evict = .ok c' ∧ c'.Linked ∧ c'.capacity = c.capacity ∧
      c'.lruList = c.lruList.take (c.capacity - 1) := by
  by_cases hfull : c.lruList.length = c.capacity
  · have hne : c.lruList ≠ [] := by
      rintro hnil
      rw [hnil] at hfull
      exact positive.ne hfull
    obtain ⟨init, n, hlist⟩ : ∃ init n, c.lruList = init ++ [n] :=
      ⟨_, _, (List.dropLast_append_getLast hne).symm⟩
    have hkeys := h.keys
    rw [hlist, List.map_append] at hkeys
    have hothers : (c.lruList.filter fun m => m.key ≠ n.key) = init := by
      have hself : (init.filter fun m => m.key ≠ n.key) = init :=
        List.filter_eq_self.mpr fun m hm => decide_eq_true_iff.mpr
          ((List.nodup_append.mp hkeys).2.2 _ (List.mem_map_of_mem hm) _ (by simp))
      rw [hlist, List.filter_append, hself]
      simp
    have hmap := h.filter_cache n.key
    rw [hothers] at hmap
    have hdrop : c.lruList.dropLast = init := by rw [hlist, List.dropLast_concat]
    rw [← hdrop] at hmap
    refine ⟨_, ?_, h.restrict (List.dropLast_sublist _) hmap, rfl, ?_⟩
    · rw [LruCache.evict, if_pos (by rwa [h.length_cache]), hlist, List.getLast?_concat]
      rw [← hlist]
      rfl
    · rw [← hfull]
      exact List.dropLast_eq_take
  · refine ⟨c, ?_, h, rfl, ?_⟩
    · rw [LruCache.evict, if_neg (by rwa [h.length_cache])]
    · rw [List.take_of_length_le (by omega)]

/-- **A new node at the front**, and the entry that points to it. -/
theorem Linked.insert (h : (c.eraseKey key).Linked) (absent : key ∉ c.lruList.map LruNode.key) (value : V) :
    ∃ c', (c.pushFront key value).assignBegin key = .ok c' ∧ c'.Linked ∧ c'.capacity = c.capacity ∧
      c'.lruList = ⟨c.nextIter, key, value⟩ :: c.lruList := by
  refine ⟨_, rfl, ⟨h.map.cons _, List.nodup_cons.mpr ⟨absent, h.keys⟩, ?_, fun n hn => ?_⟩, rfl, rfl⟩
  · refine List.nodup_cons.mpr ⟨fun hmem => ?_, h.iters⟩
    obtain ⟨n, hn, hiter⟩ := List.mem_map.mp hmem
    exact (h.fresh n hn).ne hiter
  · rcases List.mem_cons.mp hn with rfl | hn
    · exact Nat.lt_succ_self _
    · exact (h.fresh n hn).trans (Nat.lt_succ_self _)

theorem Linked.eraseKey_absent (h : c.Linked) (absent : key ∉ c.lruList.map LruNode.key) :
    (c.eraseKey key).Linked := by
  have hmap := h.filter_cache key
  rw [filter_key_of_absent absent] at hmap
  exact h.restrict (List.Sublist.refl _) hmap

/-! ## The two operations -/

omit [DecidableEq K] in
theorem keys_contents (c : LruCache K V) : c.contents.map Prod.fst = c.lruList.map LruNode.key := by
  rw [contents, List.map_map]
  rfl

/-- **`Put`** is the use of a key, and a cut behind `capacity_` keys. -/
theorem Linked.put (h : c.Linked) (positive : 0 < c.capacity) (bounded : c.lruList.length ≤ c.capacity)
    (key : K) (value : V) :
    ∃ c', c.put key value = .ok c' ∧ c'.Linked ∧ c'.capacity = c.capacity ∧
      c'.contents = (touch key value c.contents).take c.capacity := by
  obtain ⟨c₁, herase, hlinked₁, hcap₁, hlist₁⟩ := h.eraseOld key
  have hbounded₁ : c₁.lruList.length ≤ c₁.capacity := by
    rw [hlist₁, hcap₁]
    exact (List.length_filter_le _ _).trans bounded
  obtain ⟨c₂, hevict, hlinked₂, hcap₂, hlist₂⟩ := hlinked₁.evict (hcap₁ ▸ positive) hbounded₁
  have habsent : key ∉ c₂.lruList.map LruNode.key := by
    rw [hlist₂, hlist₁]
    exact fun hmem => not_mem_filter_key (((List.take_sublist _ _).map _).subset hmem)
  obtain ⟨c₃, hinsert, hlinked₃, hcap₃, hlist₃⟩ := (hlinked₂.eraseKey_absent habsent).insert habsent value
  refine ⟨c₃, ?_, hlinked₃, hcap₃.trans (hcap₂.trans hcap₁), ?_⟩
  · rw [LruCache.put, herase, Outcome.ok_bind, hevict, Outcome.ok_bind, hinsert]
  · obtain ⟨n, hn⟩ := Nat.exists_eq_succ_of_ne_zero positive.ne'
    rw [contents, hlist₃, hlist₂, hlist₁, hcap₁, hn, touch, List.take_succ_cons, contents, List.filter_map,
      List.map_cons, ← List.map_take]
    rfl

/-- **`Get`** of a key that is not there. -/
theorem Linked.get_absent (h : c.Linked) (absent : key ∉ c.contents.map Prod.fst) :
    c.get key = .ok (none, c) := by
  rw [keys_contents] at absent
  rw [LruCache.get, h.find_eq_none absent]

/-- **`Get`** of a key that is there is the use of the key. -/
theorem Linked.get_present (h : c.Linked) (mem : (key, value) ∈ c.contents) :
    ∃ c', c.get key = .ok (some value, c') ∧ c'.Linked ∧ c'.capacity = c.capacity ∧
      c'.contents = touch key value c.contents := by
  obtain ⟨n, hn, heq⟩ := List.mem_map.mp mem
  obtain ⟨rfl, rfl⟩ := Prod.mk.inj heq
  set c₁ : LruCache K V := { c with lruList := c.lruList.filter fun m => m.iter ≠ n.iter } with hc₁
  have hrest : c₁.lruList = c.lruList.filter fun m => m.key ≠ n.key := h.filter_iter hn
  have hremoved : (c₁.eraseKey n.key).Linked := h.remove hn
  obtain ⟨c', hinsert, hlinked, hcap, hlist⟩ := hremoved.insert (hrest ▸ not_mem_filter_key) n.value
  have hfirst : (⟨c.nextIter, n.key, n.value⟩ : LruNode K V) ∈ c'.lruList := hlist ▸ List.mem_cons_self
  refine ⟨c', ?_, hlinked, hcap, ?_⟩
  · have herase := eraseNode_eq h hn
    have hfind := hlinked.find_of_mem hfirst
    have hderef := hlinked.deref hfirst
    rw [LruCache.get, h.find_of_mem hn]
    show (c.deref n.iter >>= _) = _
    rw [h.deref hn, Outcome.ok_bind, herase, Outcome.ok_bind, ← hc₁, hinsert, Outcome.ok_bind, hfind,
      Outcome.ofOption_some, Outcome.ok_bind, hderef]
    rfl
  · rw [contents, hlist, hrest, touch, contents, List.filter_map, List.map_cons]
    rfl

end LruCache

/-! ## Runs -/

/-- A call of `Put` or `Get`. -/
inductive LruCall (K V : Type)
  | put (key : K) (value : V)
  | get (key : K)

namespace LruCache

variable {K V : Type} [DecidableEq K] {c : LruCache K V}

/-- A call, with what it answers; `Put` answers nothing. -/
def call (c : LruCache K V) : LruCall K V → Outcome (Option V × LruCache K V)
  | .put key value => do
      let c ← c.put key value
      .ok (none, c)
  | .get key => c.get key

/-- Calls, with what they answer. -/
def run (c : LruCache K V) : List (LruCall K V) → Outcome (List (Option V) × LruCache K V)
  | [] => .ok ([], c)
  | x :: calls => do
      let (answer, c) ← c.call x
      let (answers, c) ← c.run calls
      .ok (answer :: answers, c)

/-- The key that a call uses: one that is put, or got with success. -/
def usedKey : LruCall K V × Option V → Option K
  | (.put key _, _) => some key
  | (.get key, some _) => some key
  | (.get _, none) => none

/-- The keys used by calls, the last one first. -/
def uses (trace : List (LruCall K V × Option V)) : List K := (trace.filterMap usedKey).reverse

/-- The value of the last `Put` of a key. -/
def lastPut (calls : List (LruCall K V)) (key : K) : Option V :=
  calls.reverse.findSome? fun
    | .put k value => if k = key then some value else none
    | .get _ => none

/-- The keys other than a key that were used since its last use. -/
def usedSince (trace : List (LruCall K V × Option V)) (key : K) : List K :=
  (uses trace).takeWhile fun k => k ≠ key

/-- What the calls so far say about the cache: it holds their last uses. -/
structure Tracks (trace : List (LruCall K V × Option V)) (h : List (K × V)) (c : LruCache K V) : Prop where
  linked : c.Linked
  positive : 0 < c.capacity
  contents : c.contents = (recency h).take c.capacity
  uses : uses trace = h.map Prod.fst
  values : ∀ k, (h.find? fun e => e.1 = k).map Prod.snd = lastPut (trace.map Prod.fst) k

variable {trace : List (LruCall K V × Option V)} {h : List (K × V)}

theorem Tracks.length_le (t : Tracks trace h c) : c.lruList.length ≤ c.capacity := by
  have hlength : c.contents.length = c.lruList.length := List.length_map _
  rw [← hlength, t.contents]
  exact List.length_take_le _ _

/-- The keys used since the last use of a key, of the calls and of their uses. -/
theorem Tracks.usedSince_eq (t : Tracks trace h c) (key : K) :
    usedSince trace key = (since h key).map Prod.fst := by
  rw [usedSince, t.uses, since, List.takeWhile_map]
  rfl

/-- **What is in the cache.** -/
theorem Tracks.find? (t : Tracks trace h c) (key : K) :
    (c.contents.find? fun e => e.1 = key).map Prod.snd
      = if (usedSince trace key).toFinset.card < c.capacity then lastPut (trace.map Prod.fst) key else none := by
  rw [t.contents, find?_take_recency, t.usedSince_eq, ← t.values]
  split <;> rfl

omit [DecidableEq K] in
theorem uses_concat (trace : List (LruCall K V × Option V)) (x : LruCall K V × Option V) :
    uses (trace ++ [x]) = (usedKey x).toList ++ uses trace := by
  rw [uses, uses, List.filterMap_append, List.reverse_append]
  cases hx : usedKey x with
  | none => simp [hx]
  | some k => simp [hx]

theorem lastPut_concat_put (calls : List (LruCall K V)) (key : K) (value : V) (k : K) :
    lastPut (calls ++ [.put key value]) k = if key = k then some value else lastPut calls k := by
  rw [lastPut, List.reverse_append]
  by_cases hk : key = k
  · simp [hk]
  · simp [hk, lastPut]

theorem lastPut_concat_get (calls : List (LruCall K V)) (key k : K) :
    lastPut (calls ++ [.get key]) k = lastPut calls k := by
  rw [lastPut, List.reverse_append]
  rfl

/-- A `Put` is a use. -/
theorem Tracks.put (t : Tracks trace h c) (key : K) (value : V) :
    ∃ c', c.put key value = .ok c' ∧ c'.capacity = c.capacity ∧
      c'.contents = (touch key value c.contents).take c.capacity ∧
      Tracks (trace ++ [(.put key value, none)]) ((key, value) :: h) c' := by
  obtain ⟨c', hput, hlinked, hcap, hcontents⟩ := t.linked.put t.positive t.length_le key value
  refine ⟨c', hput, hcap, hcontents, hlinked, hcap ▸ t.positive, ?_, ?_, fun k => ?_⟩
  · obtain ⟨n, hn⟩ := Nat.exists_eq_succ_of_ne_zero t.positive.ne'
    rw [hcontents, hcap, t.contents, hn, touch_take (nodup_recency h)]
    rfl
  · rw [uses_concat, t.uses]
    rfl
  · rw [List.map_append]
    show _ = lastPut (_ ++ [.put key value]) k
    rw [lastPut_concat_put, ← t.values]
    by_cases hk : key = k
    · simp [hk]
    · simp [hk]

/-- A `Get` is a use if it finds the key. -/
theorem Tracks.get (t : Tracks trace h c) (key : K) :
    ∃ answer c' h', c.get key = .ok (answer, c') ∧ c'.capacity = c.capacity ∧
      answer = (c.contents.find? fun e => e.1 = key).map Prod.snd ∧
      Tracks (trace ++ [(.get key, answer)]) h' c' := by
  have hvalues : ∀ (answer : Option V) k, lastPut ((trace ++ [(LruCall.get key, answer)]).map Prod.fst) k
      = lastPut (trace.map Prod.fst) k := by
    intro answer k
    rw [List.map_append]
    exact lastPut_concat_get _ _ _
  cases hfind : c.contents.find? fun e => e.1 = key with
  | none =>
      have habsent : key ∉ c.contents.map Prod.fst := by
        intro hmem
        obtain ⟨e, he, hkey⟩ := List.mem_map.mp hmem
        exact List.find?_eq_none.mp hfind e he (decide_eq_true hkey)
      refine ⟨none, c, h, t.linked.get_absent habsent, rfl, rfl, t.linked, t.positive, t.contents, ?_,
        fun k => ?_⟩
      · rw [uses_concat, t.uses]
        rfl
      · rw [hvalues, t.values]
  | some e =>
      obtain ⟨k, value⟩ := e
      obtain rfl : k = key := by simpa using List.find?_some hfind
      have hmem := List.mem_of_find?_eq_some hfind
      obtain ⟨c', hget, hlinked, hcap, hcontents⟩ := t.linked.get_present hmem
      have hlast : h.find? (fun e => e.1 = k) = some (k, value) := by
        have hcut := hfind
        rw [t.contents, find?_take_recency] at hcut
        split at hcut
        · exact hcut
        · cases hcut
      refine ⟨some value, c', (k, value) :: h, hget, hcap, rfl, hlinked, hcap ▸ t.positive, ?_, ?_,
        fun x => ?_⟩
      · rw [hcontents, hcap, t.contents]
        refine touch_take_of_mem (nodup_recency h) ?_
        rw [← t.contents]
        exact List.mem_map_of_mem hmem
      · rw [uses_concat, t.uses]
        rfl
      · rw [hvalues, ← t.values]
        by_cases hx : k = x
        · subst hx
          simp [hlast]
        · simp [hx]

/-- **One call** is tracked. -/
theorem Tracks.call (t : Tracks trace h c) (x : LruCall K V) :
    ∃ answer c' h', c.call x = .ok (answer, c') ∧ c'.capacity = c.capacity ∧
      Tracks (trace ++ [(x, answer)]) h' c' := by
  cases x with
  | put key value =>
      obtain ⟨c', hput, hcap, -, ht⟩ := t.put key value
      exact ⟨none, c', _, by rw [LruCache.call, hput]; rfl, hcap, ht⟩
  | get key =>
      obtain ⟨answer, c', h', hget, hcap, -, ht⟩ := t.get key
      exact ⟨answer, c', h', hget, hcap, ht⟩

/-- **A run** is tracked. -/
theorem Tracks.run (t : Tracks trace h c) (calls : List (LruCall K V)) :
    ∃ answers c' h', c.run calls = .ok (answers, c') ∧ answers.length = calls.length ∧
      c'.capacity = c.capacity ∧ Tracks (trace ++ calls.zip answers) h' c' := by
  induction calls generalizing trace h c with
  | nil => exact ⟨[], c, h, rfl, rfl, rfl, by simpa using t⟩
  | cons x calls ih =>
      obtain ⟨answer, c₁, h₁, hcall, hcap₁, t₁⟩ := t.call x
      obtain ⟨answers, c', h', hrun, hlength, hcap, ht⟩ := ih t₁
      refine ⟨answer :: answers, c', h', ?_, congrArg Nat.succ hlength, hcap.trans hcap₁, ?_⟩
      · rw [LruCache.run, hcall]
        show (c₁.run calls >>= _) = _
        rw [hrun]
        rfl
      · rw [List.append_assoc] at ht
        exact ht

omit [DecidableEq K] in
theorem Linked.keys_cache (h : c.Linked) (k : K) : k ∈ c.cache.map Prod.fst ↔ k ∈ c.contents.map Prod.fst := by
  rw [keys_contents, (h.map.map Prod.fst).mem_iff, List.map_map]
  rfl

/-- **What a `Put` evicts**: nothing, if the cache has room or has the key; and else the key that
was used longest ago. -/
theorem Tracks.evicts (t : Tracks trace h c) {key x : K} (hx : x ∈ c.contents.map Prod.fst) (value : V) :
    x ∉ ((touch key value c.contents).take c.capacity).map Prod.fst ↔
      key ∉ c.contents.map Prod.fst ∧ c.contents.length = c.capacity ∧
        ∀ y ∈ c.contents.map Prod.fst, y ≠ x → y ∈ usedSince trace x := by
  have hlength : c.contents.length ≤ c.capacity := by
    rw [t.contents]
    exact List.length_take_le _ _
  by_cases hkey : key ∈ c.contents.map Prod.fst
  · -- The use of a key that is there moves it, and drops nothing.
    have hall : (touch key value c.contents).take c.capacity = touch key value c.contents :=
      List.take_of_length_le ((length_touch_le hkey).trans hlength)
    rw [hall, mem_keys_touch]
    simp [hkey, hx]
  · have hne : x ≠ key := fun heq => hkey (heq ▸ hx)
    have hrest : (c.contents.filter fun e => e.1 ≠ key) = c.contents := by
      refine List.filter_eq_self.mpr fun e he => decide_eq_true_iff.mpr fun hk => hkey ?_
      exact hk ▸ List.mem_map_of_mem he
    obtain ⟨n, hn⟩ := Nat.exists_eq_succ_of_ne_zero t.positive.ne'
    have hkept : ((touch key value c.contents).take c.capacity).map Prod.fst
        = key :: (c.contents.take n).map Prod.fst := by
      rw [touch, hrest, hn, List.take_succ_cons, List.map_cons]
    rw [hkept, List.mem_cons, not_or]
    by_cases hfull : c.contents.length = c.capacity
    · obtain ⟨init, z, hsplit⟩ : ∃ init z, c.contents = init ++ [z] := by
        refine ⟨_, _, (List.dropLast_append_getLast (List.ne_nil_of_length_pos ?_)).symm⟩
        rw [hfull]
        exact t.positive
      have hinit : c.contents.take n = init := by
        rw [hsplit, List.length_append, List.length_singleton, hn] at hfull
        rw [hsplit]
        exact List.take_left' (Nat.succ.inj hfull)
      have hlast : ((recency h).take c.capacity).getLast? = some z := by
        rw [← t.contents, hsplit, List.getLast?_concat]
      have holdest : ∀ y ∈ c.contents.map Prod.fst, y ≠ z.1 → y ∈ usedSince trace z.1 := by
        intro y hy hyz
        obtain ⟨e, he, rfl⟩ := List.mem_map.mp hy
        rw [t.usedSince_eq]
        exact usedSince_of_getLast hlast (t.contents ▸ he) hyz
      have hnodup : (c.contents.map Prod.fst).Nodup := keys_contents c ▸ t.linked.keys
      have hout : x ∉ init.map Prod.fst ↔ x = z.1 := by
        rw [hsplit, List.map_append] at hx hnodup
        constructor
        · intro hnot
          simpa using (List.mem_append.mp hx).resolve_left hnot
        · rintro rfl hmem
          exact (List.nodup_append.mp hnodup).2.2 _ hmem z.1 (by simp) rfl
      rw [hinit, hout]
      constructor
      · rintro ⟨-, rfl⟩
        exact ⟨hkey, hfull, holdest⟩
      · rintro ⟨-, -, hlru⟩
        refine ⟨hne, by_contra fun hxz => ?_⟩
        -- Else each of the two would have been used since the last use of the other.
        have hz : z.1 ∈ c.contents.map Prod.fst := by simp [hsplit]
        have hzx := hlru z.1 hz (Ne.symm hxz)
        have hxz := holdest x hx hxz
        rw [t.usedSince_eq] at hzx hxz
        exact since_asymm hzx hxz
    · have hall : c.contents.take n = c.contents := List.take_of_length_le (by omega)
      rw [hall]
      simp [hx, hfull]

/-- What the calls so far say about the cache. -/
structure Describes (calls : List (LruCall K V)) (answers : List (Option V)) (capacity : ℕ)
    (c : LruCache K V) : Prop where
  /-- The map and the list have the same keys, and the map points to the nodes. -/
  map : c.cache.Perm (c.lruList.map fun n => (n.key, n.iter))
  distinct : (c.cache.map Prod.fst).Nodup
  bounded : c.cache.length ≤ capacity
  /-- `Get` answers with the last `Put`, if fewer than `capacity` other keys were used since. -/
  get : ∀ key, ∃ c', c.get key = .ok
    (if (usedSince (calls.zip answers) key).toFinset.card < capacity then lastPut calls key else none, c')
  /-- `Put` removes a key only from a full cache that has not its own key, and then the one that
  was used longest ago. -/
  put : ∀ key value, ∃ c', c.put key value = .ok c' ∧ key ∈ c'.cache.map Prod.fst ∧
    (∀ x ∈ c'.cache.map Prod.fst, x = key ∨ x ∈ c.cache.map Prod.fst) ∧
    ∀ x ∈ c.cache.map Prod.fst, x ∉ c'.cache.map Prod.fst ↔
      key ∉ c.cache.map Prod.fst ∧ c.cache.length = capacity ∧
        ∀ y ∈ c.cache.map Prod.fst, y ≠ x → y ∈ usedSince (calls.zip answers) x

/-- **The cache keeps the keys that were used last**, after every sequence of `Put` and `Get`, for
every capacity but 0: no iterator is used whose node was erased, the map and the list agree, `Get`
finds exactly the keys since whose last use fewer than `capacity` others were used, with the value of
their last `Put`, and an eviction removes exactly the key that was used longest ago. -/
theorem run_lru {capacity : ℕ} (positive : 0 < capacity) (calls : List (LruCall K V)) :
    ∃ answers c, (new capacity : LruCache K V).run calls = .ok (answers, c) ∧
      Describes calls answers capacity c := by
  have hnew : Tracks [] [] (new capacity : LruCache K V) :=
    ⟨⟨List.Perm.refl _, List.nodup_nil, List.nodup_nil, nofun⟩, positive, List.take_nil.symm, rfl,
      fun _ => rfl⟩
  obtain ⟨answers, c, h, hrun, hlength, hcap, t⟩ := hnew.run calls
  rw [List.nil_append] at t
  have hcalls : (calls.zip answers).map Prod.fst = calls := List.map_fst_zip hlength.ge
  have hcap : c.capacity = capacity := hcap
  have hsize : c.contents.length = c.cache.length := by
    rw [contents, List.length_map, t.linked.length_cache]
  refine ⟨answers, c, hrun, t.linked.map, ?_, ?_, fun key => ?_, fun key value => ?_⟩
  · rw [(t.linked.map.map Prod.fst).nodup_iff, List.map_map]
    exact t.linked.keys
  · rw [t.linked.length_cache, ← hcap]
    exact t.length_le
  · obtain ⟨answer, c', -, hget, -, rfl, -⟩ := t.get key
    refine ⟨c', ?_⟩
    rw [hget, t.find?, hcalls, hcap]
  · obtain ⟨c', hput, -, hcontents, t'⟩ := t.put key value
    refine ⟨c', hput, ?_, fun x hx => ?_, fun x hx => ?_⟩
    · rw [t'.linked.keys_cache, t'.contents, recency]
      obtain ⟨n, hn⟩ := Nat.exists_eq_succ_of_ne_zero t'.positive.ne'
      rw [hn, touch, List.take_succ_cons]
      exact List.mem_cons_self
    · rw [t'.linked.keys_cache, hcontents] at hx
      rw [t.linked.keys_cache]
      exact mem_keys_touch.mp (((List.take_sublist _ _).map _).subset hx)
    · rw [t.linked.keys_cache] at hx
      simp only [t'.linked.keys_cache, t.linked.keys_cache, hcontents]
      rw [t.evicts hx, hsize, hcap]

/-- Two values: the key put first is used again, and the other one is evicted. -/
theorem run_lru_three :
    ∃ answers c, (new 2 : LruCache ℕ Char).run [.put 1 'a', .put 2 'b', .get 1, .put 3 'c', .get 2] = .ok (answers, c) ∧
      Describes [.put 1 'a', .put 2 'b', .get 1, .put 3 'c', .get 2] answers 2 c ∧
      answers = [none, none, some 'a', none, none] := by
  obtain ⟨answers, c, hrun, hdescribes⟩ := run_lru (K := ℕ) (V := Char) (Nat.succ_pos 1)
    [.put 1 'a', .put 2 'b', .get 1, .put 3 'c', .get 2]
  refine ⟨answers, c, hrun, hdescribes, ?_⟩
  obtain ⟨c', hvalue⟩ : ∃ c', (new 2 : LruCache ℕ Char).run
      [.put 1 'a', .put 2 'b', .get 1, .put 3 'c', .get 2] = .ok ([none, none, some 'a', none, none], c') :=
    ⟨_, rfl⟩
  exact congrArg Prod.fst (Outcome.ok.inj (hrun.symm.trans hvalue))

end LruCache

/-! ## The open value logs -/

/-- `VLogReader::InitFile(file_no, current_file)`, over the files that can be opened. -/
def initFile {F : Type} (opens : ℕ → Option F) (c : LruCache ℕ F) (fileNo : ℕ) :
    Outcome (F × LruCache ℕ F) := do
  let (file, c) ← c.get fileNo
  match file with
  | some file => .ok (file, c)
  | none =>
      match opens fileNo with
      | none => .fail .kIOError
      | some file => do
          let c ← c.put fileNo file
          .ok (file, c)

/-- The list of the store is cut off like that of the cache. -/
theorem lruPut_eq_touch {handles : List (ℕ × ℕ)} (bounded : handles.length ≤ lruCapacity) (fileNo inode : ℕ) :
    lruPut handles fileNo inode = (touch fileNo inode handles).take lruCapacity := by
  have hrest : (handles.filter fun h => h.1 != fileNo) = handles.filter fun h => h.1 ≠ fileNo :=
    List.filter_congr fun h _ => by simp [bne, beq_eq_decide]
  have hlength := (List.length_filter_le (fun h : ℕ × ℕ => decide (h.1 ≠ fileNo)) handles).trans bounded
  rw [lruPut, hrest, touch]
  show _ = ((fileNo, inode) :: handles.filter fun h => h.1 ≠ fileNo).take (4 + 1)
  rw [List.take_succ_cons]
  congr 1
  split
  · rename_i hfull
    rw [List.dropLast_eq_take, hfull]
    rfl
  · rename_i hroom
    exact (List.take_of_length_le (Nat.le_of_lt_succ (lt_of_le_of_ne hlength hroom))).symm

/-- **`InitFile` on the cache is what the reader of the store does**: it goes on with the file that the
list of open files has under the number, which is moved to the front, or opens it. -/
theorem initFile_spec {c : LruCache ℕ ℕ} (h : c.Linked) (capacity : c.capacity = lruCapacity)
    (bounded : c.contents.length ≤ lruCapacity) (opens : ℕ → Option ℕ) (fileNo : ℕ) :
    match c.contents.find? fun h => h.1 == fileNo with
    | some (_, inode) => ∃ c', initFile opens c fileNo = .ok (inode, c') ∧ c'.Linked ∧
        c'.contents = lruTouch c.contents fileNo inode
    | none => match opens fileNo with
      | none => initFile opens c fileNo = .fail .kIOError
      | some inode => ∃ c', initFile opens c fileNo = .ok (inode, c') ∧ c'.Linked ∧
          c'.contents = lruPut c.contents fileNo inode := by
  cases hfind : c.contents.find? fun h => h.1 == fileNo with
  | some e =>
      obtain ⟨k, inode⟩ := e
      obtain rfl : k = fileNo := by simpa using List.find?_some hfind
      obtain ⟨c', hget, hlinked, -, hcontents⟩ := h.get_present (List.mem_of_find?_eq_some hfind)
      refine ⟨c', ?_, hlinked, ?_⟩
      · rw [initFile, hget]
        rfl
      · rw [hcontents, touch, lruTouch]
        congr 1
        exact List.filter_congr fun h _ => by simp [bne, beq_eq_decide]
  | none =>
      have habsent : fileNo ∉ c.contents.map Prod.fst := by
        intro hmem
        obtain ⟨e, he, hkey⟩ := List.mem_map.mp hmem
        exact List.find?_eq_none.mp hfind e he (beq_iff_eq.mpr hkey)
      have hget := h.get_absent habsent
      cases hopen : opens fileNo with
      | none =>
          show initFile opens c fileNo = _
          rw [initFile, hget]
          simp only [Outcome.ok_bind, hopen]
      | some inode =>
          have hpositive : 0 < c.capacity := capacity ▸ (by decide : 0 < lruCapacity)
          have hlist : c.lruList.length ≤ c.capacity := by
            rw [capacity, ← List.length_map (fun n : LruNode ℕ ℕ => (n.key, n.value))]
            exact bounded
          obtain ⟨c', hput, hlinked, -, hcontents⟩ := h.put hpositive hlist fileNo inode
          refine ⟨c', ?_, hlinked, ?_⟩
          · rw [initFile, hget]
            simp only [Outcome.ok_bind, hopen, hput]
          · rw [hcontents, capacity, lruPut_eq_touch bounded]

end Lsmkv
