import Lsmkv.BlockFormat
import Lsmkv.Lib.NodeChain
import Mathlib.Data.Nat.Size

/-!
# Skip lists

`Skiplist` (`src/include/skiplist.h`): nodes on up to sixteen chains, the bottom one of all nodes
and every other one of some of the nodes of the chain below.  Nodes are numbers, in the order of
their creation, and node 0 is the head.  A node has as many pointers as its height, and to follow
or to set another one is a fault, as is a pointer that is null or was never set.

The comparator is a parameter, of which `Compares` is asked: on good keys it compares ranks in a
linear order.  `Holds` is the invariant: the chains are those parts of one sorted list of nodes that
their heights select.  A search stands between two parts of this list, whatever its level is, and
that is what its induction is about (`findLoop_spec`, `findSetPrevLoop_spec`); an insertion links the
new node into each of its chains behind the last smaller node (`Holds.insert`).  `insertAll_spec`
collects what holds of every sequence of insertions.
-/

namespace Lsmkv

open NodeChain

/-- `Skiplist`: the keys, heights and pointers of its nodes (by level, then by node), how many there
are, and `max_level`. -/
structure Skiplist (K : Type) where
  key : ℕ → K
  height : ℕ → ℕ
  next : ℕ → ℕ → Option ℕ
  size : ℕ
  maxLevel : ℕ

namespace Skiplist

variable {K : Type}

/-- `MAX_LEVEL`. -/
def levels : ℕ := 16

/-- The constructor: a head with a default key and null pointers. -/
def new (default : K) : Skiplist K where
  key := fun _ => default
  height := Function.update (fun _ => 0) 0 levels
  next := fun _ _ => none
  size := 1
  maxLevel := 1

/-- `random_level()`, for a random number; `std::bit_width` is `Nat.size`. -/
def randomLevel (random : ℕ) : ℕ := levels - Nat.size (random &&& (2 ^ (levels - 1) - 1))

/-- `x->next(level)`. -/
def nextAt (s : Skiplist K) (x level : ℕ) : Outcome (Option ℕ) :=
  if level < s.height x then .ok (s.next level x) else .fault

/-- `x->setnext(level, y)`. -/
def setNext (s : Skiplist K) (x level : ℕ) (y : Option ℕ) : Outcome (Skiplist K) :=
  if level < s.height x then
    .ok { s with next := Function.update s.next level (Function.update (s.next level) x y) }
  else .fault

section Search

variable (cmp : K → K → Outcome Ordering)

/-- `KeyIsAfterNode(key, n)`. -/
def keyIsAfterNode (s : Skiplist K) (key : K) : Option ℕ → Outcome Bool
  | none => .ok false
  | some n => do
      let c ← cmp (s.key n) key
      .ok (decide (c = .lt))

/-- `equal(key, n)`. -/
def equal (s : Skiplist K) (key : K) : Option ℕ → Outcome Bool
  | none => .ok false
  | some n => do
      let c ← cmp (s.key n) key
      .ok (decide (c = .eq))

/-- The loop of `findNode`; the number bounds its rounds. -/
def findLoop (s : Skiplist K) (key : K) : ℕ → ℕ → ℕ → Outcome (Option ℕ)
  | 0, _, _ => .fault
  | rounds + 1, cur, level => do
      let next ← s.nextAt cur level
      if ← s.keyIsAfterNode cmp key next then do
        let next ← Outcome.ofOption next
        findLoop s key rounds next level
      else if ← s.equal cmp key next then .ok next
      else if level = 0 then .ok next
      else findLoop s key rounds cur (level - 1)

/-- `findNode(key)`. -/
def findNode (s : Skiplist K) (key : K) : Outcome (Option ℕ) :=
  s.findLoop cmp key (s.size + s.maxLevel) 0 (s.maxLevel - 1)

/-- The loop of `find_set_prev`; a pointer of `prev` that is not set yet is `none`. -/
def findSetPrevLoop (s : Skiplist K) (key : K) :
    ℕ → ℕ → ℕ → (ℕ → Option ℕ) → Outcome (Option ℕ × (ℕ → Option ℕ))
  | 0, _, _, _ => .fault
  | rounds + 1, cur, level, prev => do
      let next ← s.nextAt cur level
      if ← s.keyIsAfterNode cmp key next then do
        let next ← Outcome.ofOption next
        findSetPrevLoop s key rounds next level prev
      else if level = 0 then .ok (next, Function.update prev level (some cur))
      else findSetPrevLoop s key rounds cur (level - 1) (Function.update prev level (some cur))

/-- `find_set_prev(key, prev)`. -/
def findSetPrev (s : Skiplist K) (key : K) : Outcome (Option ℕ × (ℕ → Option ℕ)) :=
  s.findSetPrevLoop cmp key (s.size + s.maxLevel) 0 (s.maxLevel - 1) fun _ => none

/-- `if (height > getMaxHeight())`: the predecessors on the new levels, and `max_level`. -/
def raise (s : Skiplist K) (height : ℕ) (prev : ℕ → Option ℕ) : (ℕ → Option ℕ) × Skiplist K :=
  if s.maxLevel < height then
    (fun i => if s.maxLevel ≤ i ∧ i < height then some 0 else prev i, { s with maxLevel := height })
  else (prev, s)

/-- `createNode(key, height)`. -/
def createNode (s : Skiplist K) (key : K) (height : ℕ) : ℕ × Skiplist K :=
  (s.size, { s with
    key := Function.update s.key s.size key
    height := Function.update s.height s.size height
    size := s.size + 1 })

/-- A round of the loop of `insert`, on a level. -/
def link (prev : ℕ → Option ℕ) (n : ℕ) (s : Skiplist K) (level : ℕ) : Outcome (Skiplist K) := do
  let p ← Outcome.ofOption (prev level)
  let next ← s.nextAt p level
  let s ← s.setNext n level next
  s.setNext p level (some n)

/-- `insert(key)`, with the height that `random_level` chooses. -/
def insert (s : Skiplist K) (key : K) (height : ℕ) : Outcome (Skiplist K) := do
  let (n, prev) ← s.findSetPrev cmp key
  if ← s.equal cmp key n then .fault
  else
    let (prev, s) := s.raise height prev
    let (n, s) := s.createNode key height
    (List.range height).foldlM (link prev n) s

/-- Insertions into a new list. -/
def insertAll (default : K) (nodes : List (K × ℕ)) : Outcome (Skiplist K) :=
  nodes.foldlM (fun s p => s.insert cmp p.1 p.2) (new default)

end Search

/-- `Skiplist::Iterator`. -/
structure Iterator where
  cur : Option ℕ
  stop : Option ℕ

namespace Iterator

/-- `Iterator(list)`. -/
def new : Iterator := ⟨none, none⟩

/-- `hasNext()`. -/
def hasNext (it : Iterator) : Bool := decide (it.stop ≠ it.cur) && it.cur.isSome

/-- `seekToFirst()`. -/
def seekToFirst (s : Skiplist K) (it : Iterator) : Outcome Iterator := do
  let cur ← s.nextAt 0 0
  .ok { it with cur := cur }

/-- `seek(key)`. -/
def seek (cmp : K → K → Outcome Ordering) (s : Skiplist K) (it : Iterator) (key : K) :
    Outcome Iterator := do
  let cur ← s.findNode cmp key
  .ok { it with cur := cur }

/-- `key()`. -/
def key (s : Skiplist K) (it : Iterator) : Outcome K := do
  let cur ← Outcome.ofOption it.cur
  .ok (s.key cur)

/-- `next()`. -/
def next (s : Skiplist K) (it : Iterator) : Outcome Iterator := do
  let cur ← Outcome.ofOption it.cur
  let next ← s.nextAt cur 0
  .ok { it with cur := next }

/-- The keys up to `hasNext()` being false; the number bounds the rounds. -/
def drain (s : Skiplist K) : ℕ → Iterator → Outcome (List K)
  | 0, it => if it.hasNext then .fault else .ok []
  | rounds + 1, it =>
      if it.hasNext then do
        let key ← it.key s
        let it ← it.next s
        let rest ← drain s rounds it
        .ok (key :: rest)
      else .ok []

end Iterator

/-! ## The invariant -/

/-- On good keys, the comparator compares ranks. -/
def Compares {α : Type} [LinearOrder α] (cmp : K → K → Outcome Ordering) (good : K → Prop)
    (rank : K → α) : Prop :=
  ∀ a b, good a → good b → cmp a b = .ok (compare (rank a) (rank b))

/-- **The list is built over a sorted list of nodes**: each level is the chain of those that are
high enough. -/
structure Holds {α : Type} [LinearOrder α] (good : K → Prop) (rank : K → α) (s : Skiplist K)
    (order : List ℕ) : Prop where
  node : ∀ x ∈ order, 0 < x ∧ x < s.size
  size : s.size = order.length + 1
  height : ∀ x ∈ order, 1 ≤ s.height x ∧ s.height x ≤ s.maxLevel
  head : s.height 0 = levels
  maxLevel : 1 ≤ s.maxLevel ∧ s.maxLevel ≤ levels
  chain : ∀ i < levels, Chain (s.next i) 0 (order.filter fun x => decide (i < s.height x))
  good : ∀ x ∈ order, good (s.key x)
  sorted : order.Pairwise fun x y => rank (s.key x) < rank (s.key y)

section

variable {α : Type} [LinearOrder α] {cmp : K → K → Outcome Ordering} {good : K → Prop} {rank : K → α}
  {s : Skiplist K} {order : List ℕ} {k : K}

theorem keyIsAfterNode_some (compares : Compares cmp good rank) {x : ℕ} (node : good (s.key x))
    (key : good k) :
    s.keyIsAfterNode cmp k (some x) = .ok (decide (rank (s.key x) < rank k)) := by
  rw [keyIsAfterNode, compares _ _ node key, Outcome.ok_bind]
  simp only [compare_lt_iff_lt]

theorem equal_some (compares : Compares cmp good rank) {x : ℕ} (node : good (s.key x)) (key : good k) :
    s.equal cmp k (some x) = .ok (decide (rank (s.key x) = rank k)) := by
  rw [equal, compares _ _ node key, Outcome.ok_bind]
  simp only [compare_eq_iff_eq]

theorem holds_new (default : K) : Holds good rank (new default) [] where
  node := by simp
  size := rfl
  height := by simp
  head := rfl
  maxLevel := ⟨le_rfl, (by decide : 1 ≤ levels)⟩
  chain := fun _ _ => Chain.nil rfl
  good := by simp
  sorted := List.Pairwise.nil

/-- The first node that is not below a rank. -/
def firstFrom (rank : K → α) (s : Skiplist K) (order : List ℕ) (k : K) : Option ℕ :=
  order.find? fun x => decide (rank k ≤ rank (s.key x))

theorem firstFrom_split {o₁ : List ℕ} (o₂ : List ℕ) {x : ℕ} (below : ∀ y ∈ o₁, rank (s.key y) < rank k)
    (reached : rank k ≤ rank (s.key x)) : firstFrom rank s (o₁ ++ x :: o₂) k = some x := by
  rw [firstFrom, List.find?_eq_some_iff_append]
  refine ⟨by simpa using reached, o₁, o₂, rfl, fun y hy => ?_⟩
  simpa using below y hy

theorem firstFrom_eq_none (below : ∀ y ∈ order, rank (s.key y) < rank k) :
    firstFrom rank s order k = none := by
  rw [firstFrom, List.find?_eq_none]
  intro y hy
  simpa using below y hy

/-! ## Searching -/

/-- The last node of a part of the list is the last of those it has on a lower level. -/
theorem getLastD_filter {p : ℕ → Bool} {l : List ℕ} (last : p (l.getLastD 0) = true) :
    (l.filter p).getLastD 0 = l.getLastD 0 := by
  rcases List.eq_nil_or_concat' l with rfl | ⟨l, x, rfl⟩
  · rfl
  · rw [List.getLastD_concat] at last ⊢
    rw [List.filter_append, List.filter_cons_of_pos last, List.filter_nil, List.getLastD_concat]

/-- **What a search sees** on a level: behind the last node of a first part, the first node of the
second part that is on the level. -/
theorem Holds.nextAt {o₁ o₂ : List ℕ} (h : Holds good rank s (o₁ ++ o₂)) {level : ℕ}
    (lt : level < levels) (high : level < s.height (o₁.getLastD 0)) :
    s.nextAt (o₁.getLastD 0) level = .ok (o₂.find? fun x => decide (level < s.height x)) := by
  have hchain := h.chain level lt
  rw [List.filter_append] at hchain
  have hlast := getLastD_filter (p := fun x => decide (level < s.height x)) (l := o₁) (by simpa using high)
  rw [Skiplist.nextAt, if_pos high, ← hlast, hchain.next_getLastD, List.head?_filter]

/-- All nodes are on the bottom level. -/
theorem Holds.eq_nil_of_bottom {o₁ o₂ : List ℕ} (h : Holds good rank s (o₁ ++ o₂))
    {a : List ℕ} (sub : a ⊆ o₂) (none_high : ∀ x ∈ a, ¬ (0 < s.height x)) : a = [] := by
  refine List.eq_nil_iff_forall_not_mem.mpr fun x hx => none_high x hx ?_
  exact (h.height x (List.mem_append_right _ (sub hx))).1

/-- Everything before a node that is not above the key is below the key. -/
theorem Holds.below_step {o₁ a b : List ℕ} {x : ℕ} (h : Holds good rank s (o₁ ++ (a ++ x :: b)))
    (below : ∀ y ∈ o₁, rank (s.key y) < rank k) (lt : rank (s.key x) ≤ rank k) :
    ∀ y ∈ o₁ ++ a, rank (s.key y) < rank k := by
  intro y hy
  rcases List.mem_append.mp hy with hy | hy
  · exact below y hy
  · have hsorted := (List.pairwise_append.mp h.sorted).2.1
    exact ((List.pairwise_append.mp hsorted).2.2 y hy x List.mem_cons_self).trans_le lt

/-- A step to the right. -/
theorem Holds.below_right {o₁ a b : List ℕ} {x : ℕ} (h : Holds good rank s (o₁ ++ (a ++ x :: b)))
    (below : ∀ y ∈ o₁, rank (s.key y) < rank k) (after : rank (s.key x) < rank k) :
    ∀ y ∈ o₁ ++ a ++ [x], rank (s.key y) < rank k := by
  intro y hy
  rcases List.mem_append.mp hy with hy | hy
  · exact h.below_step below after.le y hy
  · rwa [List.mem_singleton.mp hy]

/-- **`findNode`** from a node between two parts of the list, on a level of that node.  The
induction is on the rounds; a step goes to the right or down. -/
theorem findLoop_spec (compares : Compares cmp good rank) (key : good k) (o₁ o₂ : List ℕ)
    (h : Holds good rank s (o₁ ++ o₂)) (below : ∀ y ∈ o₁, rank (s.key y) < rank k) {level : ℕ}
    (lt : level < levels) (high : level < s.height (o₁.getLastD 0)) {rounds : ℕ}
    (enough : o₂.length + level < rounds) :
    s.findLoop cmp k rounds (o₁.getLastD 0) level = .ok (firstFrom rank s (o₁ ++ o₂) k) := by
  induction rounds generalizing o₁ o₂ level with
  | zero => omega
  | succ rounds ih =>
      have hdown : ∀ (hlevel : level ≠ 0), s.findLoop cmp k rounds (o₁.getLastD 0) (level - 1)
          = .ok (firstFrom rank s (o₁ ++ o₂) k) :=
        fun hlevel => ih o₁ o₂ h below (by omega) (by omega) (by omega)
      rw [findLoop, h.nextAt lt high, Outcome.ok_bind]
      cases hfind : o₂.find? fun x => decide (level < s.height x) with
      | none =>
          simp only [keyIsAfterNode, equal, Outcome.ok_bind, Bool.false_eq_true, if_false]
          split
          case isTrue hlevel =>
            subst hlevel
            obtain rfl : o₂ = [] := h.eq_nil_of_bottom (List.Subset.refl _) (by simpa using hfind)
            rw [List.append_nil, firstFrom_eq_none below]
          case isFalse hlevel => exact hdown hlevel
      | some x =>
          obtain ⟨hx, a, b, rfl, ha⟩ := List.find?_eq_some_iff_append.mp hfind
          have hgood : good (s.key x) := h.good x (by simp)
          rw [keyIsAfterNode_some compares hgood key, Outcome.ok_bind]
          by_cases hafter : rank (s.key x) < rank k
          · -- To the right.
            have hsplit : o₁ ++ (a ++ x :: b) = o₁ ++ a ++ [x] ++ b := by simp
            have hlast : (o₁ ++ a ++ [x]).getLastD 0 = x := List.getLastD_concat
            have hright := ih (o₁ ++ a ++ [x]) b (by rwa [← hsplit]) (h.below_right below hafter) lt
              (by rw [hlast]; simpa using hx) (by simp at enough; omega)
            rw [hlast] at hright
            simp only [hafter, decide_true, if_true, Outcome.ofOption_some, Outcome.ok_bind]
            rw [hright, hsplit]
          · have hreached : rank k ≤ rank (s.key x) := not_lt.mp hafter
            simp only [hafter, decide_false, Bool.false_eq_true, if_false]
            rw [equal_some compares hgood key, Outcome.ok_bind]
            by_cases heq : rank (s.key x) = rank k
            · -- The key is found on this level.
              have hfirst := firstFrom_split b (h.below_step below heq.le) hreached
              simp only [heq, decide_true, if_true]
              rw [← hfirst, List.append_assoc]
            · simp only [heq, decide_false, Bool.false_eq_true, if_false]
              split
              case isTrue hlevel =>
                subst hlevel
                obtain rfl : a = [] := h.eq_nil_of_bottom (List.subset_append_left _ _) (by simpa using ha)
                rw [List.nil_append, firstFrom_split b below hreached]
              case isFalse hlevel => exact hdown hlevel

/-- **`findNode` returns the first node that is not below the key**, or null. -/
theorem Holds.findNode (h : Holds good rank s order) (compares : Compares cmp good rank) (key : good k) :
    s.findNode cmp k = .ok (firstFrom rank s order k) := by
  have hmax := h.maxLevel
  have hsize := h.size
  refine findLoop_spec compares key [] order h (by simp) (by omega) ?_ (by omega)
  show s.maxLevel - 1 < s.height 0
  rw [h.head]
  omega

/-! ## Inserting -/

/-- The last node on a level that is below a key, or the head. -/
def pred (rank : K → α) (s : Skiplist K) (order : List ℕ) (k : K) (i : ℕ) : ℕ :=
  (order.filter fun x => decide (i < s.height x) && decide (rank (s.key x) < rank k)).getLastD 0

/-- Where the nodes of a first part are below the key, and those of the second part that are on the
level are not, the search stands at the predecessor. -/
theorem pred_eq {o₁ o₂ : List ℕ} {level : ℕ} (below : ∀ y ∈ o₁, rank (s.key y) < rank k)
    (high : level < levels → level < s.height (o₁.getLastD 0)) (lt : level < levels)
    (above : ∀ y ∈ o₂, level < s.height y → rank k ≤ rank (s.key y)) :
    pred rank s (o₁ ++ o₂) k level = o₁.getLastD 0 := by
  have hfirst : o₁.filter (fun x => decide (level < s.height x) && decide (rank (s.key x) < rank k))
      = o₁.filter fun x => decide (level < s.height x) :=
    List.filter_congr fun y hy => by simp [below y hy]
  have hsecond : o₂.filter (fun x => decide (level < s.height x) && decide (rank (s.key x) < rank k))
      = [] := by
    refine List.filter_eq_nil_iff.mpr fun y hy hboth => ?_
    simp only [Bool.and_eq_true, decide_eq_true_eq] at hboth
    exact absurd hboth.2 (not_lt.mpr (above y hy hboth.1))
  rw [pred, List.filter_append, hfirst, hsecond, List.append_nil]
  exact getLastD_filter (by simpa using high lt)

/-- **`find_set_prev`** from a node between two parts of the list: it sets the predecessors on this
level and those below. -/
theorem findSetPrevLoop_spec (compares : Compares cmp good rank) (key : good k) (o₁ o₂ : List ℕ)
    (h : Holds good rank s (o₁ ++ o₂)) (below : ∀ y ∈ o₁, rank (s.key y) < rank k) {level : ℕ}
    (lt : level < levels) (high : level < s.height (o₁.getLastD 0)) {rounds : ℕ}
    (enough : o₂.length + level < rounds) (prev : ℕ → Option ℕ) :
    s.findSetPrevLoop cmp k rounds (o₁.getLastD 0) level prev
      = .ok (firstFrom rank s (o₁ ++ o₂) k,
          fun i => if i ≤ level then some (pred rank s (o₁ ++ o₂) k i) else prev i) := by
  induction rounds generalizing o₁ o₂ level prev with
  | zero => omega
  | succ rounds ih =>
      -- Down, where nothing on this level is before the key.
      have hdown (above : ∀ y ∈ o₂, level < s.height y → rank k ≤ rank (s.key y)) :
          (level = 0 → Function.update prev level (some (o₁.getLastD 0))
              = fun i => if i ≤ level then some (pred rank s (o₁ ++ o₂) k i) else prev i) ∧
            (level ≠ 0 → s.findSetPrevLoop cmp k rounds (o₁.getLastD 0) (level - 1)
                (Function.update prev level (some (o₁.getLastD 0)))
              = .ok (firstFrom rank s (o₁ ++ o₂) k,
                  fun i => if i ≤ level then some (pred rank s (o₁ ++ o₂) k i) else prev i)) := by
        have hpred := pred_eq below (fun _ => high) lt above
        constructor
        · rintro rfl
          funext i
          cases i with
          | zero => simp [hpred]
          | succ i => simp
        · intro hlevel
          rw [ih o₁ o₂ h below (by omega) (by omega) (by omega)]
          congr 2
          funext i
          rcases lt_trichotomy i level with hi | rfl | hi
          · rw [if_pos (by omega), if_pos (by omega)]
          · rw [if_neg (by omega), if_pos le_rfl, Function.update_self, hpred]
          · rw [if_neg (by omega), if_neg (by omega), Function.update_of_ne hi.ne']
      rw [findSetPrevLoop, h.nextAt lt high, Outcome.ok_bind]
      cases hfind : o₂.find? fun x => decide (level < s.height x) with
      | none =>
          obtain ⟨hbottom, hlower⟩ := hdown fun y hy hhigh => by
            have := List.find?_eq_none.mp hfind y hy
            simp [hhigh] at this
          simp only [keyIsAfterNode, Outcome.ok_bind, Bool.false_eq_true, if_false]
          split
          case isTrue hlevel =>
            rw [hbottom hlevel]
            subst hlevel
            obtain rfl : o₂ = [] := h.eq_nil_of_bottom (List.Subset.refl _) (by simpa using hfind)
            rw [List.append_nil, firstFrom_eq_none below]
          case isFalse hlevel => exact hlower hlevel
      | some x =>
          obtain ⟨hx, a, b, rfl, ha⟩ := List.find?_eq_some_iff_append.mp hfind
          have hgood : good (s.key x) := h.good x (by simp)
          rw [keyIsAfterNode_some compares hgood key, Outcome.ok_bind]
          by_cases hafter : rank (s.key x) < rank k
          · -- To the right.
            have hsplit : o₁ ++ (a ++ x :: b) = o₁ ++ a ++ [x] ++ b := by simp
            have hlast : (o₁ ++ a ++ [x]).getLastD 0 = x := List.getLastD_concat
            have hright := ih (o₁ ++ a ++ [x]) b (by rwa [← hsplit]) (h.below_right below hafter) lt
              (by rw [hlast]; simpa using hx) (by simp at enough; omega) prev
            rw [hlast] at hright
            simp only [hafter, decide_true, if_true, Outcome.ofOption_some, Outcome.ok_bind]
            rw [hright, hsplit]
          · have hreached : rank k ≤ rank (s.key x) := not_lt.mp hafter
            obtain ⟨hbottom, hlower⟩ := hdown fun y hy hhigh => by
              rcases List.mem_append.mp hy with hy | hy
              · have := ha y hy
                simp [hhigh] at this
              · rcases List.mem_cons.mp hy with rfl | hy
                · exact hreached
                · have hsorted := (List.pairwise_append.mp (List.pairwise_append.mp h.sorted).2.1).2.1
                  exact hreached.trans ((List.pairwise_cons.mp hsorted).1 y hy).le
            simp only [hafter, decide_false, Bool.false_eq_true, if_false]
            split
            case isTrue hlevel =>
              rw [hbottom hlevel]
              subst hlevel
              obtain rfl : a = [] := h.eq_nil_of_bottom (List.subset_append_left _ _) (by simpa using ha)
              rw [List.nil_append, firstFrom_split b below hreached]
            case isFalse hlevel => exact hlower hlevel

/-- **`find_set_prev`** from the head: the predecessors on all levels in use. -/
theorem Holds.findSetPrev (h : Holds good rank s order) (compares : Compares cmp good rank)
    (key : good k) : s.findSetPrev cmp k = .ok (firstFrom rank s order k,
      fun i => if i < s.maxLevel then some (pred rank s order k i) else none) := by
  have hmax := h.maxLevel
  have hsize := h.size
  have hhead : s.maxLevel - 1 < s.height 0 := by
    rw [h.head]
    omega
  have hloop := findSetPrevLoop_spec compares key [] order h (by simp) (by omega)
    hhead (show order.length + (s.maxLevel - 1) < s.size + s.maxLevel by omega) fun _ => none
  have hle : ∀ i, i ≤ s.maxLevel - 1 ↔ i < s.maxLevel := fun i => by omega
  simp only [hle] at hloop
  exact hloop

/-- The node behind which a new one is linked is on the level. -/
theorem Holds.height_pred (h : Holds good rank s order) {i : ℕ} (lt : i < levels) :
    i < s.height (pred rank s order k i) := by
  rcases List.eq_nil_or_concat' (order.filter fun x =>
    decide (i < s.height x) && decide (rank (s.key x) < rank k)) with hnil | ⟨l, x, hconcat⟩
  · rw [pred, hnil, List.getLastD_nil, h.head]
    exact lt
  · have hx : x ∈ order.filter fun x => decide (i < s.height x) && decide (rank (s.key x) < rank k) := by
      simp [hconcat]
    rw [pred, hconcat, List.getLastD_concat]
    simp only [List.mem_filter, Bool.and_eq_true, decide_eq_true_eq] at hx
    exact hx.2.1

/-- Above the levels in use there is no node. -/
theorem Holds.pred_above (h : Holds good rank s order) {i : ℕ} (above : s.maxLevel ≤ i) :
    pred rank s order k i = 0 := by
  have hnil : order.filter (fun x => decide (i < s.height x) && decide (rank (s.key x) < rank k)) = [] := by
    refine List.filter_eq_nil_iff.mpr fun x hx hboth => ?_
    simp only [Bool.and_eq_true, decide_eq_true_eq] at hboth
    have := (h.height x hx).2
    omega
  rw [pred, hnil, List.getLastD_nil]

/-- The chain of a level in which a node was linked behind another one. -/
def linked (next : ℕ → Option ℕ) (p n : ℕ) : ℕ → Option ℕ :=
  Function.update (Function.update next n (next p)) p (some n)

/-- **The loop of `insert`** links the node on each of its levels, and leaves the others. -/
theorem foldlM_link {prev : ℕ → Option ℕ} {p : ℕ → ℕ} {n height : ℕ}
    (set : ∀ i < height, prev i = some (p i)) (high : ∀ i < height, i < s.height (p i))
    (self : s.height n = height) :
    (List.range height).foldlM (link prev n) s
      = .ok { s with next := fun i => if i < height then linked (s.next i) (p i) n else s.next i } := by
  have hloop : ∀ j ≤ height, (List.range j).foldlM (link prev n) s
      = .ok { s with next := fun i => if i < j then linked (s.next i) (p i) n else s.next i } := by
    intro j hj
    induction j with
    | zero => simp
    | succ j ih =>
        have hlt : j < height := hj
        rw [List.range_succ, List.foldlM_append, ih (by omega), Outcome.ok_bind, List.foldlM_cons,
          link, set j hlt]
        simp only [Outcome.ofOption_some, Outcome.ok_bind, Skiplist.nextAt, if_pos (high j hlt), setNext, self,
          if_pos hlt, List.foldlM_nil, Outcome.pure_eq, lt_irrefl, if_false, Function.update_self]
        congr 2
        funext i
        rcases lt_trichotomy i j with hi | rfl | hi
        · rw [Function.update_of_ne hi.ne, Function.update_of_ne hi.ne, if_pos hi,
            if_pos (by omega)]
        · rw [Function.update_self, if_pos (by omega)]
          rfl
        · rw [Function.update_of_ne hi.ne', Function.update_of_ne hi.ne', if_neg (by omega),
            if_neg (by omega)]
  exact hloop height le_rfl

/-- A sorted list splits at a key that it does not have. -/
theorem exists_split (sorted : order.Pairwise fun x y => rank (s.key x) < rank (s.key y))
    (fresh : ∀ x ∈ order, rank (s.key x) ≠ rank k) :
    ∃ a b, order = a ++ b ∧ (∀ x ∈ a, rank (s.key x) < rank k) ∧ ∀ x ∈ b, rank k < rank (s.key x) := by
  induction order with
  | nil => exact ⟨[], [], rfl, by simp, by simp⟩
  | cons x order ih =>
      obtain ⟨hx, horder⟩ := List.pairwise_cons.mp sorted
      rcases lt_or_gt_of_ne (fresh x List.mem_cons_self) with hlt | hgt
      · obtain ⟨a, b, rfl, ha, hb⟩ := ih horder fun y hy => fresh y (List.mem_cons_of_mem _ hy)
        refine ⟨x :: a, b, rfl, fun y hy => ?_, hb⟩
        rcases List.mem_cons.mp hy with rfl | hy
        · exact hlt
        · exact ha y hy
      · refine ⟨[], x :: order, rfl, by simp, fun y hy => ?_⟩
        rcases List.mem_cons.mp hy with rfl | hy
        · exact hgt
        · exact hgt.trans (hx y hy)

/-- The predecessor is the last node of the first part that is on the level. -/
theorem pred_split {a b : List ℕ} (below : ∀ x ∈ a, rank (s.key x) < rank k)
    (above : ∀ x ∈ b, rank k < rank (s.key x)) (i : ℕ) :
    pred rank s (a ++ b) k i = (a.filter fun x => decide (i < s.height x)).getLastD 0 := by
  have hfirst : a.filter (fun x => decide (i < s.height x) && decide (rank (s.key x) < rank k))
      = a.filter fun x => decide (i < s.height x) :=
    List.filter_congr fun y hy => by simp [below y hy]
  have hsecond : b.filter (fun x => decide (i < s.height x) && decide (rank (s.key x) < rank k))
      = [] :=
    List.filter_eq_nil_iff.mpr fun y hy => by simp [(above y hy).le]
  rw [pred, List.filter_append, hfirst, hsecond, List.append_nil]

/-- With the levels that the new node adds, the predecessors are known on all levels of it. -/
theorem Holds.raise (h : Holds good rank s order) {height i : ℕ} (lt : i < height) :
    (s.raise height fun i => if i < s.maxLevel then some (pred rank s order k i) else none).1 i
      = some (pred rank s order k i) := by
  by_cases hmax : s.maxLevel < height
  · by_cases hi : s.maxLevel ≤ i
    · simp [Skiplist.raise, hmax, hi, lt, h.pred_above hi]
    · simp [Skiplist.raise, hmax, hi, not_le.mp hi]
  · simp [Skiplist.raise, hmax, show i < s.maxLevel by omega]

theorem raise_snd (s : Skiplist K) (height : ℕ) (prev : ℕ → Option ℕ) :
    (s.raise height prev).2 = { s with maxLevel := max s.maxLevel height } := by
  by_cases hmax : s.maxLevel < height
  · simp [Skiplist.raise, hmax, hmax.le]
  · simp [Skiplist.raise, hmax, not_lt.mp hmax]

/-- The list with a node for a new key, linked in. -/
def inserted (rank : K → α) (s : Skiplist K) (order : List ℕ) (k : K) (height : ℕ) : Skiplist K where
  key := Function.update s.key s.size k
  height := Function.update s.height s.size height
  next := fun i =>
    if i < height then linked (s.next i) (pred rank s order k i) s.size else s.next i
  size := s.size + 1
  maxLevel := max s.maxLevel height

/-- **`insert`** of a new key succeeds, whatever height is chosen for it. -/
theorem Holds.insert_eq (h : Holds good rank s order) (compares : Compares cmp good rank)
    (key : good k) (fresh : ∀ x ∈ order, rank (s.key x) ≠ rank k) {height : ℕ} (le : height ≤ levels) :
    s.insert cmp k height = .ok (inserted rank s order k height) := by
  have hequal : s.equal cmp k (firstFrom rank s order k) = .ok false := by
    cases hfirst : firstFrom rank s order k with
    | none => rfl
    | some x =>
        have hx := List.mem_of_find?_eq_some hfirst
        rw [equal_some compares (h.good x hx) key, decide_eq_false (fresh x hx)]
  have hpred : ∀ i < height, pred rank s order k i ≠ s.size := by
    intro i hi heq
    rcases List.eq_nil_or_concat' (order.filter fun x =>
      decide (i < s.height x) && decide (rank (s.key x) < rank k)) with hnil | ⟨l, x, hconcat⟩
    · rw [pred, hnil, List.getLastD_nil] at heq
      have := h.size
      omega
    · have hx : x ∈ order.filter fun x =>
          decide (i < s.height x) && decide (rank (s.key x) < rank k) := by
        simp [hconcat]
      rw [pred, hconcat, List.getLastD_concat] at heq
      exact (h.node x (List.mem_of_mem_filter hx)).2.ne heq
  rw [Skiplist.insert, h.findSetPrev compares key]
  simp only [Outcome.ok_bind, hequal, Bool.false_eq_true, if_false]
  have hraise : s.raise height (fun i => if i < s.maxLevel then some (pred rank s order k i) else none)
      = ((s.raise height fun i => if i < s.maxLevel then some (pred rank s order k i) else none).1,
        { s with maxLevel := max s.maxLevel height }) :=
    Prod.ext rfl (raise_snd s height _)
  rw [hraise]
  simp only [createNode]
  rw [foldlM_link (p := pred rank s order k) (fun i hi => h.raise hi) (fun i hi => ?_)
    (Function.update_self ..)]
  · rfl
  · show i < Function.update s.height s.size height (pred rank s order k i)
    rw [Function.update_of_ne (hpred i hi)]
    exact h.height_pred (hi.trans_le le)

/-- **An insertion keeps the invariant.** -/
theorem Holds.inserted {a b : List ℕ} (h : Holds good rank s (a ++ b)) (key : good k)
    (below : ∀ x ∈ a, rank (s.key x) < rank k) (above : ∀ x ∈ b, rank k < rank (s.key x))
    {height : ℕ} (pos : 1 ≤ height) (le : height ≤ levels) :
    Holds good rank (inserted rank s (a ++ b) k height) (a ++ s.size :: b) := by
  have hsize := h.size
  have hold : ∀ x ∈ a ++ b, x ≠ s.size := fun x hx => (h.node x hx).2.ne
  have hcases : ∀ x ∈ a ++ s.size :: b, x ∈ a ++ b ∨ x = s.size := by
    intro x hx
    simp only [List.mem_append, List.mem_cons] at hx ⊢
    tauto
  -- the insertion writes the key and height of the new node only
  have hkey : ∀ x ∈ a ++ b, (Skiplist.inserted rank s (a ++ b) k height).key x = s.key x :=
    fun x hx => Function.update_of_ne (hold x hx) ..
  have hheight : ∀ x ∈ a ++ b, (Skiplist.inserted rank s (a ++ b) k height).height x = s.height x :=
    fun x hx => Function.update_of_ne (hold x hx) ..
  have hnewKey : (Skiplist.inserted rank s (a ++ b) k height).key s.size = k := Function.update_self ..
  have hnewHeight : (Skiplist.inserted rank s (a ++ b) k height).height s.size = height :=
    Function.update_self ..
  refine ⟨fun x hx => ?_, ?_, fun x hx => ?_, ?_, ?_, fun i hi => ?_, fun x hx => ?_, ?_⟩
  · show 0 < x ∧ x < s.size + 1
    rcases hcases x hx with hx | rfl
    · have := h.node x hx
      omega
    · omega
  · show s.size + 1 = _
    simp only [List.length_append, List.length_cons] at hsize ⊢
    omega
  · show _ ∧ _ ≤ max s.maxLevel height
    rcases hcases x hx with hx | rfl
    · rw [hheight x hx]
      have := h.height x hx
      omega
    · rw [hnewHeight]
      exact ⟨pos, le_max_right _ _⟩
  · rw [← h.head]
    exact Function.update_of_ne (by omega) ..
  · show 1 ≤ max s.maxLevel height ∧ max s.maxLevel height ≤ levels
    have := h.maxLevel
    omega
  · -- The node is linked between the parts of the level, if it is high enough.
    have hfilter : ∀ l ⊆ a ++ b, (l.filter fun x =>
        decide (i < (Skiplist.inserted rank s (a ++ b) k height).height x))
          = l.filter fun x => decide (i < s.height x) :=
      fun l hl => List.filter_congr fun x hx => by rw [hheight x (hl hx)]
    have hchain := h.chain i hi
    rw [List.filter_append] at hchain
    rw [List.filter_append, List.filter_cons, hfilter a (List.subset_append_left _ _),
      hfilter b (List.subset_append_right _ _), hnewHeight]
    show Chain (if i < height then linked (s.next i) _ s.size else s.next i) 0 _
    by_cases hlt : i < height
    · have hnew : s.size ∉ 0 :: ((a.filter fun x => decide (i < s.height x))
          ++ b.filter fun x => decide (i < s.height x)) := by
        rw [← List.filter_append]
        intro hmem
        rcases List.mem_cons.mp hmem with hzero | hmem
        · omega
        · exact hold _ (List.mem_of_mem_filter hmem) rfl
      rw [if_pos hlt, if_pos (by simpa using hlt), pred_split below above]
      exact hchain.insert hnew
    · rw [if_neg hlt, if_neg (by simpa using hlt)]
      exact hchain
  · rcases hcases x hx with hx | rfl
    · rw [hkey x hx]
      exact h.good x hx
    · rwa [hnewKey]
  -- The keys ascend: below the new one in `a`, above it in `b`.
  · obtain ⟨ha, hb, hab⟩ := List.pairwise_append.mp h.sorted
    have hleft := fun x (hx : x ∈ a) => hkey x (List.mem_append_left _ hx)
    have hright := fun x (hx : x ∈ b) => hkey x (List.mem_append_right _ hx)
    refine List.pairwise_append.mpr ⟨?_, List.pairwise_cons.mpr ⟨fun y hy => ?_, ?_⟩, fun x hx y hy => ?_⟩
    · exact ha.imp_of_mem fun {x y} hx hy hxy => by rwa [hleft x hx, hleft y hy]
    · rw [hnewKey, hright y hy]
      exact above y hy
    · exact hb.imp_of_mem fun {x y} hx hy hxy => by rwa [hright x hx, hright y hy]
    · rw [hleft x hx]
      rcases List.mem_cons.mp hy with rfl | hy
      · rw [hnewKey]
        exact below x hx
      · rw [hright y hy]
        exact hab x hx y hy

/-- **Insertions**, one after the other. -/
theorem Holds.insertAll (h : Holds good rank s order) (compares : Compares cmp good rank)
    {nodes : List (K × ℕ)} (keys : ∀ p ∈ nodes, good p.1)
    (heights : ∀ p ∈ nodes, 1 ≤ p.2 ∧ p.2 ≤ levels)
    (fresh : ∀ p ∈ nodes, ∀ x ∈ order, rank (s.key x) ≠ rank p.1)
    (distinct : nodes.Pairwise fun p q => rank p.1 ≠ rank q.1) :
    ∃ s' order', nodes.foldlM (fun s p => s.insert cmp p.1 p.2) s = .ok s' ∧
      Holds good rank s' order' ∧ (order'.map s'.key).Perm (order.map s.key ++ nodes.map Prod.fst) := by
  induction nodes generalizing s order with
  | nil => exact ⟨s, order, rfl, h, by simp⟩
  | cons p nodes ih =>
      obtain ⟨hp, hnodes⟩ := List.pairwise_cons.mp distinct
      have hkey := keys p List.mem_cons_self
      obtain ⟨hpos, hle⟩ := heights p List.mem_cons_self
      have hfresh := fresh p List.mem_cons_self
      have hinsert := h.insert_eq compares hkey hfresh hle
      -- the place of the first key splits the order, and the rest goes on from there
      obtain ⟨a, b, rfl, hbelow, habove⟩ := exists_split h.sorted hfresh
      have hold : ∀ x ∈ a ++ b, (Skiplist.inserted rank s (a ++ b) p.1 p.2).key x = s.key x :=
        fun x hx => Function.update_of_ne (h.node x hx).2.ne ..
      have hnew : (Skiplist.inserted rank s (a ++ b) p.1 p.2).key s.size = p.1 :=
        Function.update_self ..
      -- the keys to come differ from the old ones and from the one just put in
      have hstillFresh : ∀ q ∈ nodes, ∀ x ∈ a ++ s.size :: b,
          rank ((Skiplist.inserted rank s (a ++ b) p.1 p.2).key x) ≠ rank q.1 := by
        intro q hq x hx
        have hqfresh := fresh q (List.mem_cons_of_mem _ hq)
        rcases List.mem_append.mp hx with hx | hx
        · rw [hold x (List.mem_append_left _ hx)]
          exact hqfresh x (List.mem_append_left _ hx)
        · rcases List.mem_cons.mp hx with rfl | hx
          · rw [hnew]
            exact hp q hq
          · rw [hold x (List.mem_append_right _ hx)]
            exact hqfresh x (List.mem_append_right _ hx)
      obtain ⟨s', order', hrun, hholds, hperm⟩ := ih (h.inserted hkey hbelow habove hpos hle)
        (fun q hq => keys q (List.mem_cons_of_mem _ hq))
        (fun q hq => heights q (List.mem_cons_of_mem _ hq)) hstillFresh hnodes
      refine ⟨s', order', ?_, hholds, hperm.trans ?_⟩
      · rw [List.foldlM_cons, hinsert, Outcome.ok_bind, hrun]
      · have hmap : (a ++ s.size :: b).map (Skiplist.inserted rank s (a ++ b) p.1 p.2).key
            = a.map s.key ++ p.1 :: b.map s.key := by
          rw [List.map_append, List.map_cons, hnew,
            List.map_congr_left fun x hx => hold x (List.mem_append_left _ hx),
            List.map_congr_left fun x hx => hold x (List.mem_append_right _ hx)]
        have hmiddle : (a.map s.key ++ p.1 :: b.map s.key).Perm
            ((a.map s.key ++ b.map s.key) ++ [p.1]) :=
          List.perm_middle.trans (List.perm_append_singleton _ _).symm
        rw [hmap, List.map_append, List.map_cons]
        simpa using hmiddle.append_right (nodes.map Prod.fst)

/-! ## What a list of keys becomes -/

/-- The least of some keys that is not below a key, or none. -/
def IsLeastFrom (rank : K → α) (keys : List K) (k : K) : Option K → Prop
  | some l => l ∈ keys ∧ rank k ≤ rank l ∧ ∀ m ∈ keys, rank k ≤ rank m → rank l ≤ rank m
  | none => ∀ m ∈ keys, rank m < rank k

/-- **What a skip list is for**: its chains ascend, each is a part of the one below, and the bottom
one has every key once; `findNode` finds the least key from a given one on, and an iterator goes
over all keys in order. -/
structure Represents (cmp : K → K → Outcome Ordering) (good : K → Prop) (rank : K → α)
    (s : Skiplist K) (keys : List K) : Prop where
  chains : ∃ chain : ℕ → List ℕ, (∀ i < levels, Chain (s.next i) 0 (chain i)) ∧
    (∀ i < levels, (chain i).Pairwise fun x y => rank (s.key x) < rank (s.key y)) ∧
    (∀ i, i + 1 < levels → (chain (i + 1)).Sublist (chain i)) ∧
    ((chain 0).map s.key).Perm keys
  find : ∀ k, good k → ∃ r, s.findNode cmp k = .ok r ∧ IsLeastFrom rank keys k (r.map s.key)
  iterate : ∃ it out, Iterator.new.seekToFirst s = .ok it ∧
    (∀ rounds, keys.length ≤ rounds → it.drain s rounds = .ok out) ∧ out.Perm keys ∧
    out.Pairwise fun a b => rank a < rank b

/-- The iterator on a chain goes over what is behind it. -/
theorem Iterator.drain_spec (high : ∀ x ∈ order, 0 < s.height x) (chain : Chain (s.next 0) 0 order)
    {pre rest : List ℕ} (split : order = pre ++ rest) {rounds : ℕ} (enough : rest.length ≤ rounds) :
    Iterator.drain s rounds ⟨rest.head?, none⟩ = .ok (rest.map s.key) := by
  induction rest generalizing pre rounds with
  | nil => cases rounds <;> rfl
  | cons x rest ih =>
      cases rounds with
      | zero => simp at enough
      | succ rounds =>
          have hsplit : order = (pre ++ [x]) ++ rest := by rw [split, List.append_assoc]; rfl
          have hnext : s.next 0 x = rest.head? := by
            have hlast := (hsplit ▸ chain).next_getLastD
            rwa [List.getLastD_concat] at hlast
          have hx : 0 < s.height x := high x (by simp [split])
          have hrest := ih hsplit (Nat.le_of_succ_le_succ (by simpa using enough))
          rw [Iterator.drain, if_pos (by rfl)]
          simp only [Iterator.key, Iterator.next, List.head?_cons, Outcome.ofOption_some, Outcome.ok_bind,
            Skiplist.nextAt, if_pos hx, hnext]
          rw [hrest]
          rfl

theorem Holds.isLeastFrom (h : Holds good rank s order) (k : K) :
    IsLeastFrom rank (order.map s.key) k ((firstFrom rank s order k).map s.key) := by
  cases hfirst : firstFrom rank s order k with
  | none =>
      intro m hm
      obtain ⟨x, hx, rfl⟩ := List.mem_map.mp hm
      simpa using List.find?_eq_none.mp hfirst x hx
  | some x =>
      obtain ⟨hx, a, b, rfl, ha⟩ := List.find?_eq_some_iff_append.mp hfirst
      refine ⟨List.mem_map_of_mem (by simp), by simpa using hx, fun m hm hle => ?_⟩
      obtain ⟨y, hy, rfl⟩ := List.mem_map.mp hm
      rcases List.mem_append.mp hy with hy | hy
      · have := ha y hy
        simp [hle] at this
      · rcases List.mem_cons.mp hy with rfl | hy
        · exact le_rfl
        · exact ((List.pairwise_cons.mp (List.pairwise_append.mp h.sorted).2.1).1 y hy).le

theorem IsLeastFrom.perm {keys keys' : List K} {r : Option K} (h : IsLeastFrom rank keys k r)
    (perm : keys.Perm keys') : IsLeastFrom rank keys' k r := by
  cases r with
  | none => exact fun m hm => h m (perm.mem_iff.mpr hm)
  | some l =>
      exact ⟨perm.mem_iff.mp h.1, h.2.1, fun m hm => h.2.2 m (perm.mem_iff.mpr hm)⟩

theorem Holds.represents (h : Holds good rank s order) (compares : Compares cmp good rank)
    {keys : List K} (perm : (order.map s.key).Perm keys) : Represents cmp good rank s keys := by
  have hbottom : order.filter (fun x => decide (0 < s.height x)) = order :=
    List.filter_eq_self.mpr fun x hx => decide_eq_true (h.height x hx).1
  have hchain := h.chain 0 (by decide)
  rw [hbottom] at hchain
  have hhead : 0 < s.height 0 := by
    rw [h.head]
    decide
  refine ⟨⟨fun i => order.filter fun x => decide (i < s.height x), h.chain,
    fun i _ => h.sorted.filter _, fun i _ => ?_, ?_⟩, fun k hk => ?_, ?_⟩
  · refine List.monotone_filter_right order fun x hx => ?_
    simp only [decide_eq_true_eq] at hx ⊢
    omega
  · show ((order.filter fun x => decide (0 < s.height x)).map s.key).Perm keys
    rwa [hbottom]
  · exact ⟨_, h.findNode compares hk, (h.isLeastFrom k).perm perm⟩
  · refine ⟨⟨order.head?, none⟩, order.map s.key, ?_, fun rounds hrounds => ?_, perm,
      List.pairwise_map.mpr h.sorted⟩
    · have hfirst : s.next 0 0 = order.head? :=
        (show Chain (s.next 0) 0 ([] ++ order) from hchain).next_getLastD
      rw [Iterator.seekToFirst, Skiplist.nextAt, if_pos hhead, hfirst]
      rfl
    · refine Iterator.drain_spec (fun x hx => (h.height x hx).1) hchain (List.nil_append _).symm ?_
      rwa [← perm.length_eq, List.length_map] at hrounds

/-- The heights that are drawn. -/
theorem randomLevel_bounds (random : ℕ) : 1 ≤ randomLevel random ∧ randomLevel random ≤ levels := by
  have hsize : Nat.size (random &&& (2 ^ (levels - 1) - 1)) ≤ levels - 1 := by
    rw [Nat.size_le, Nat.and_two_pow_sub_one_eq_mod]
    exact Nat.mod_lt _ (Nat.two_pow_pos _)
  simp only [randomLevel]
  have hlevels : 1 ≤ levels := by decide
  omega

/-- **A skip list represents the keys that were inserted.**  For any sequence of insertions of
distinct keys and any heights between 1 and `MAX_LEVEL`: no insertion fails, follows a pointer that
is null or not set, or trips over its assertion; and the list is a skip list of exactly these
keys. -/
theorem insertAll_represents (compares : Compares cmp good rank) (default : K) (nodes : List (K × ℕ))
    (keys : ∀ p ∈ nodes, good p.1) (heights : ∀ p ∈ nodes, 1 ≤ p.2 ∧ p.2 ≤ levels)
    (distinct : nodes.Pairwise fun p q => rank p.1 ≠ rank q.1) :
    ∃ s, Skiplist.insertAll cmp default nodes = .ok s ∧
      Represents cmp good rank s (nodes.map Prod.fst) := by
  obtain ⟨s, order, hrun, hholds, hperm⟩ :=
    (holds_new default).insertAll compares keys heights (by simp) distinct
  exact ⟨s, hrun, hholds.represents compares (by simpa using hperm)⟩

end

/-- Three numbers, on one, three and two levels. -/
theorem insertAll_represents_three : ∃ s,
    Skiplist.insertAll (fun a b : ℕ => .ok (compare a b)) 0 [(5, 1), (2, 3), (9, 2)] = .ok s ∧
      Represents (fun a b => .ok (compare a b)) (fun _ => True) id s [5, 2, 9] :=
  insertAll_represents (fun _ _ _ _ => rfl) 0 _ (by simp) (by decide) (by decide)

end Skiplist

end Lsmkv
