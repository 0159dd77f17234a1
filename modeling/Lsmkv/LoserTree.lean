import Lsmkv.DbFormat
import Lsmkv.Lib.HeadMerge
import Lsmkv.Lib.Tournament
import Mathlib.Data.List.GetD

/-!
# The loser tree of a compaction

`LoserTree` (`src/levelcache.cpp`) merges the iterators of the tables under
compaction.  An iterator is represented by the list of elements it has still to
deliver; it is valid while that list is non-empty, its key is the key of the
head, and `next` drops the head.

The two vectors `loser_` and `winner` are lists, read and written with bounds
checks: `none` anywhere is an access outside a vector.  The constructor, `Adjust`,
`top`, `increment` and `end` follow the source loop by loop; `visit` is the loop
of a client that takes `top` and calls `increment` until `end`.

`visit_headMerge` is the correctness of the whole: for two or more iterators
every access stays in bounds, the loop ends, and what it delivers is a head
merge of the iterators; so every element is visited once, in the order of its iterator
(`visit_interleaves`).  With one iterator the constructor reads `winner[1]` of a
vector with one cell (`create_singleton`).
-/

namespace Lsmkv

open ByteCode Tournament Merging

variable {α κ : Type} [LinearOrder κ] (key : α → κ)

/-! ## Iterators as players -/

/-- `cmp(lhs, rhs)`: an exhausted iterator is never smaller, and any other is
smaller than an exhausted one. -/
def iterCmp : List α → List α → Bool
  | [], _ => false
  | _ :: _, [] => true
  | a :: _, b :: _ => decide (key a < key b)

/-- The value an iterator plays with: the key it stands on, `⊤` when exhausted. -/
def headKey : List α → WithTop κ
  | [] => ⊤
  | a :: _ => (key a : WithTop κ)

theorem iterCmp_eq (l r : List α) :
    iterCmp key l r = decide (headKey key l < headKey key r) := by
  cases l with
  | nil => cases r <;> simp [iterCmp, headKey]
  | cons a as => cases r <;> simp [iterCmp, headKey]

/-- The value of player `i`; cells past the end never play. -/
def playerKey (mWay : List (List α)) (i : ℕ) : WithTop κ := headKey key (mWay.getD i [])

/-! ## The tree -/

/-- `xs[i] = v` on a vector; `none` is an index out of range. -/
def vecSet (xs : List ℕ) (i v : ℕ) : Option (List ℕ) :=
  if i < xs.length then some (xs.set i v) else none

/-- The state of the merge: the iterators `m_way_` and the losers `loser_`. -/
structure LoserTree (α : Type) where
  mWay : List (List α)
  loser : List ℕ

/-- `set_loser_winner(loser_[i], winner[i], left, right)` on the pair of vectors
(`loser_`, `winner`). -/
def setLoserWinner (mWay : List (List α)) (tree : List ℕ × List ℕ) (i left right : ℕ) :
    Option (List ℕ × List ℕ) := do
  let l ← mWay[left]?
  let r ← mWay[right]?
  let (lo, wi) := if iterCmp key l r then (right, left) else (left, right)
  let loser ← vecSet tree.1 i lo
  let winner ← vecSet tree.2 i wi
  pure (loser, winner)

/-- `for (i = n - 1; i > m_way_init; --i)`: the matches between two leaves. -/
def playLeaves (mWay : List (List α)) (mWayInit : ℕ) :
    ℕ → List ℕ × List ℕ → Option (List ℕ × List ℕ)
  | 0, tree => some tree
  | i + 1, tree =>
      if mWayInit < i + 1 then do
        let child := (i + 1) * 2 - mWay.length
        let tree ← setLoserWinner key mWay tree (i + 1) child (child + 1)
        playLeaves mWay mWayInit i tree
      else some tree

/-- `for (j = i; j > i / 2;) { --j; ... }`: one level of inner matches; `stop` is
`i / 2`. -/
def playLevel (mWay : List (List α)) (stop : ℕ) :
    ℕ → List ℕ × List ℕ → Option (List ℕ × List ℕ)
  | 0, tree => some tree
  | j + 1, tree =>
      if stop < j + 1 then do
        let left ← tree.2[2 * j]?
        let right ← tree.2[2 * j + 1]?
        let tree ← setLoserWinner key mWay tree j left right
        playLevel mWay stop j tree
      else some tree

/-- `for (i = m_way_init; i > 0; i /= 2)`: the levels from the leaves up.  The
first argument bounds the number of rounds; `m_way_init` rounds are enough, since
`i` is halved each time. -/
def playLevels (mWay : List (List α)) :
    ℕ → ℕ → List ℕ × List ℕ → Option (List ℕ × List ℕ)
  | 0, _, tree => some tree
  | rounds + 1, i, tree =>
      if 0 < i then do
        let tree ← playLevel key mWay (i / 2) i tree
        playLevels mWay rounds (i / 2) tree
      else some tree

/-- The match at node `m_way_init`.  When `n` is odd its left child is the last
inner node and its right child the first leaf. -/
def playMiddle (mWay : List (List α)) (mWayInit : ℕ) (tree : List ℕ × List ℕ) :
    Option (List ℕ × List ℕ) :=
  if mWay.length % 2 = 1 then do
    let left ← tree.2[mWay.length - 1]?
    setLoserWinner key mWay tree mWayInit left 0
  else setLoserWinner key mWay tree mWayInit 0 1

namespace LoserTree

/-- The constructor `LoserTree(n, m_way, cmp)`, with `n = m_way.size()`. -/
def create (mWay : List (List α)) : Option (LoserTree α) := do
  let n := mWay.length
  let mWayInit := n / 2
  let tree := (List.replicate n 0, List.replicate n 0)
  let tree ← playLeaves key mWay mWayInit (n - 1) tree
  let tree ← playMiddle key mWay mWayInit tree
  let tree ← playLevels key mWay mWayInit mWayInit tree
  let champion ← tree.2[1]?
  let loser ← vecSet tree.1 0 champion
  pure ⟨mWay, loser⟩

/-- The loop of `Adjust(index)`, entered with `parent = index + n_`.  The first
argument bounds the number of rounds. -/
def adjust (mWay : List (List α)) : ℕ → ℕ → ℕ → List ℕ → Option (List ℕ)
  | 0, _, index, loser => vecSet loser 0 index
  | rounds + 1, parent, index, loser =>
      if 0 < parent / 2 then do
        let tparent ← loser[parent / 2]?
        let s ← mWay[index]?
        let l ← mWay[tparent]?
        if iterCmp key s l then adjust mWay rounds (parent / 2) index loser
        else do
          let loser ← vecSet loser (parent / 2) index
          adjust mWay rounds (parent / 2) tparent loser
      else vecSet loser 0 index

/-- `top_iter`: the iterator of the champion. -/
def topIter (t : LoserTree α) : Option (List α) := do
  let top ← t.loser[0]?
  t.mWay[top]?

/-- `increment`: advance the champion's iterator and replay its path. -/
def increment (t : LoserTree α) : Option (LoserTree α) := do
  let top ← t.loser[0]?
  let iter ← t.mWay[top]?
  let mWay := t.mWay.set top iter.tail
  let loser ← adjust key mWay (top + mWay.length) (top + mWay.length) top t.loser
  pure ⟨mWay, loser⟩

/-- Take `top` and `increment` until `end`.  The first argument bounds the number
of rounds; running out of it is `none`, as is any access out of bounds. -/
def drain : ℕ → LoserTree α → Option (List α)
  | 0, _ => none
  | rounds + 1, t => do
      match ← t.topIter with
      | [] => pure []
      | x :: _ => do
          let t ← t.increment key
          let rest ← drain rounds t
          pure (x :: rest)

/-- Build the tree and drain it: the order in which a compaction meets the
elements of its inputs. -/
def visit (mWay : List (List α)) : Option (List α) := do
  let t ← create key mWay
  t.drain key (mWay.flatten.length + 1)

end LoserTree

/-! ## Construction -/

section Construction

variable {key} {mWay : List (List α)}

/-- The winners of a tree under construction: leaves win themselves. -/
def winners (n : ℕ) (winner : List ℕ) (c : ℕ) : ℕ :=
  if n ≤ c then c - n else winner.getD c 0

/-- A tree under construction, finished from node `k` upwards. -/
structure BuiltFrom (key : α → κ) (mWay : List (List α)) (tree : List ℕ × List ℕ)
    (k : ℕ) : Prop where
  loser_length : tree.1.length = mWay.length
  winner_length : tree.2.length = mWay.length
  winner_lt : ∀ c, tree.2.getD c 0 < mWay.length
  node : ∀ p, k ≤ p → 1 ≤ p → p < mWay.length →
    IsNode (playerKey key mWay) (fun c => tree.1.getD c 0) (winners mWay.length tree.2) p

theorem vecSet_of_lt {xs : List ℕ} {i v : ℕ} (h : i < xs.length) :
    vecSet xs i v = some (xs.set i v) := if_pos h

theorem getD_set_self {xs : List ℕ} {i v : ℕ} (h : i < xs.length) :
    (xs.set i v).getD i 0 = v := by
  simp [List.getD_eq_getElem?_getD, List.getElem?_set_self h]

theorem getD_set_of_ne {xs : List ℕ} {i j v : ℕ} (h : j ≠ i) :
    (xs.set i v).getD j 0 = xs.getD j 0 := by
  simp [List.getD_eq_getElem?_getD, List.getElem?_set_ne h.symm]

/-- One match, at the node just below the finished part of the tree. -/
theorem BuiltFrom.setLoserWinner {tree : List ℕ × List ℕ} {k : ℕ}
    (h : BuiltFrom key mWay tree (k + 1)) (left right : ℕ) (lt : k < mWay.length)
    (left_lt : left < mWay.length) (right_lt : right < mWay.length)
    (left_eq : 1 ≤ k → winners mWay.length tree.2 (2 * k) = left)
    (right_eq : 1 ≤ k → winners mWay.length tree.2 (2 * k + 1) = right) :
    ∃ tree', Lsmkv.setLoserWinner key mWay tree k left right = some tree' ∧
      BuiltFrom key mWay tree' k := by
  -- a tie goes to the right child
  obtain ⟨lo, wi, hlw, hout, hbeats⟩ : ∃ lo wi,
      (if iterCmp key (mWay.getD left []) (mWay.getD right []) then (right, left)
        else (left, right)) = (lo, wi) ∧
      ((wi = left ∧ lo = right) ∨ (wi = right ∧ lo = left)) ∧
      playerKey key mWay wi ≤ playerKey key mWay lo := by
    by_cases hcmp : headKey key (mWay.getD left []) < headKey key (mWay.getD right [])
    · refine ⟨right, left, ?_, .inl ⟨rfl, rfl⟩, hcmp.le⟩
      rw [iterCmp_eq, decide_eq_true hcmp, if_pos rfl]
    · refine ⟨left, right, ?_, .inr ⟨rfl, rfl⟩, not_lt.mp hcmp⟩
      rw [iterCmp_eq, decide_eq_false hcmp, if_neg Bool.false_ne_true]
  have hwi : wi < mWay.length := by
    rcases hout with ⟨rfl, -⟩ | ⟨rfl, -⟩ <;> assumption
  have hk1 : k < tree.1.length := h.loser_length ▸ lt
  have hk2 : k < tree.2.length := h.winner_length ▸ lt
  refine ⟨(tree.1.set k lo, tree.2.set k wi), ?_, ?_⟩
  · simp only [Lsmkv.setLoserWinner, List.getElem?_eq_getElem left_lt,
      List.getElem?_eq_getElem right_lt, Option.bind_eq_bind, Option.bind_some]
    rw [← List.getD_eq_getElem mWay [] left_lt, ← List.getD_eq_getElem mWay [] right_lt, hlw]
    simp [vecSet_of_lt hk1, vecSet_of_lt hk2]
  -- only the node of the match is written
  · have hwin : ∀ c, c ≠ k → winners mWay.length (tree.2.set k wi) c
        = winners mWay.length tree.2 c := by
      intro c hc
      simp only [winners, getD_set_of_ne hc]
    have hself : winners mWay.length (tree.2.set k wi) k = wi := by
      simp only [winners, getD_set_self hk2, if_neg (not_le.mpr lt)]
    refine ⟨by simp [h.loser_length], by simp [h.winner_length], ?_, ?_⟩
    · intro c
      by_cases hc : c = k
      · subst hc
        rw [getD_set_self hk2]
        exact hwi
      · rw [getD_set_of_ne hc]
        exact h.winner_lt c
    · intro p hkp hp1 hpn
      by_cases hp : p = k
      · subst hp
        constructor
        · rw [hself, hwin _ (by omega), hwin _ (by omega), getD_set_self hk1, left_eq hp1,
            right_eq hp1]
          exact hout
        · rw [hself, getD_set_self hk1]
          exact hbeats
      · obtain ⟨hchildren, hb⟩ := h.node p (by omega) hp1 hpn
        constructor
        · rw [hwin _ hp, hwin _ (by omega), hwin _ (by omega), getD_set_of_ne hp]
          exact hchildren
        · rw [hwin _ hp, getD_set_of_ne hp]
          exact hb

theorem BuiltFrom.getElem?_winner {tree : List ℕ × List ℕ} {k c : ℕ}
    (h : BuiltFrom key mWay tree k) (lt : c < mWay.length) :
    tree.2[c]? = some (tree.2.getD c 0) := by
  have hc : c < tree.2.length := h.winner_length ▸ lt
  rw [List.getD_eq_getElem _ _ hc, List.getElem?_eq_getElem hc]

theorem winners_of_lt {n c : ℕ} {winner : List ℕ} (h : c < n) :
    winners n winner c = winner.getD c 0 := if_neg (not_le.mpr h)

theorem BuiltFrom.playLeaves {mWayInit : ℕ} (half : mWayInit = mWay.length / 2) :
    ∀ {i : ℕ} {tree : List ℕ × List ℕ}, mWayInit ≤ i → i < mWay.length →
      BuiltFrom key mWay tree (i + 1) →
      ∃ tree', Lsmkv.playLeaves key mWay mWayInit i tree = some tree' ∧
        BuiltFrom key mWay tree' (mWayInit + 1) := by
  intro i
  induction i with
  | zero =>
      intro tree hle hlt h
      exact ⟨tree, rfl, by rwa [show mWayInit = 0 by omega]⟩
  | succ i ih =>
      intro tree hle hlt h
      by_cases hm : mWayInit < i + 1
      · obtain ⟨tree', heq, h'⟩ := h.setLoserWinner ((i + 1) * 2 - mWay.length)
          ((i + 1) * 2 - mWay.length + 1) hlt (by omega) (by omega)
          (fun _ => by rw [winners, if_pos (by omega)]; omega)
          (fun _ => by rw [winners, if_pos (by omega)]; omega)
        obtain ⟨tree'', heq', h''⟩ := ih (by omega) (by omega) h'
        exact ⟨tree'', by simp [Lsmkv.playLeaves, hm, heq, heq'], h''⟩
      · exact ⟨tree, by simp [Lsmkv.playLeaves, hm], by rwa [show mWayInit = i + 1 by omega]⟩

theorem BuiltFrom.playMiddle {tree : List ℕ × List ℕ}
    (h : BuiltFrom key mWay tree (mWay.length / 2 + 1)) (two : 2 ≤ mWay.length) :
    ∃ tree', Lsmkv.playMiddle key mWay (mWay.length / 2) tree = some tree' ∧
      BuiltFrom key mWay tree' (mWay.length / 2) := by
  by_cases hodd : mWay.length % 2 = 1
  · have hleft := h.getElem?_winner (c := mWay.length - 1) (by omega)
    obtain ⟨tree', heq, h'⟩ := h.setLoserWinner _ 0 (by omega) (h.winner_lt (mWay.length - 1))
      (by omega)
      (fun _ => by
        rw [show 2 * (mWay.length / 2) = mWay.length - 1 by omega]
        exact winners_of_lt (by omega))
      (fun _ => by rw [winners, if_pos (by omega)]; omega)
    exact ⟨tree', by simp only [Lsmkv.playMiddle, if_pos hodd, hleft, Option.bind_eq_bind,
      Option.bind_some, heq], h'⟩
  · obtain ⟨tree', heq, h'⟩ := h.setLoserWinner 0 1 (by omega)
      (by omega) (by omega) (fun _ => by rw [winners, if_pos (by omega)]; omega)
      (fun _ => by rw [winners, if_pos (by omega)]; omega)
    exact ⟨tree', by simp only [Lsmkv.playMiddle, if_neg hodd, heq], h'⟩

theorem BuiltFrom.playLevel {stop : ℕ} :
    ∀ {j : ℕ} {tree : List ℕ × List ℕ}, stop ≤ j → 2 * j ≤ mWay.length →
      BuiltFrom key mWay tree j →
      ∃ tree', Lsmkv.playLevel key mWay stop j tree = some tree' ∧
        BuiltFrom key mWay tree' stop := by
  intro j
  induction j with
  | zero =>
      intro tree hle hlt h
      exact ⟨tree, rfl, by rwa [show stop = 0 by omega]⟩
  | succ j ih =>
      intro tree hle hlt h
      by_cases hs : stop < j + 1
      · have hleft := h.getElem?_winner (c := 2 * j) (by omega)
        have hright := h.getElem?_winner (c := 2 * j + 1) (by omega)
        obtain ⟨tree', heq, h'⟩ := h.setLoserWinner _ _ (by omega) (h.winner_lt (2 * j))
          (h.winner_lt (2 * j + 1)) (fun _ => winners_of_lt (by omega))
          (fun _ => winners_of_lt (by omega))
        obtain ⟨tree'', heq', h''⟩ := ih (by omega) (by omega) h'
        exact ⟨tree'', by simp only [Lsmkv.playLevel, if_pos hs, hleft, hright, heq,
          Option.bind_eq_bind, Option.bind_some, heq'], h''⟩
      · exact ⟨tree, by simp [Lsmkv.playLevel, hs], by rwa [show stop = j + 1 by omega]⟩

theorem BuiltFrom.playLevels :
    ∀ {rounds i : ℕ} {tree : List ℕ × List ℕ}, i ≤ rounds → 2 * i ≤ mWay.length →
      BuiltFrom key mWay tree i →
      ∃ tree', Lsmkv.playLevels key mWay rounds i tree = some tree' ∧
        BuiltFrom key mWay tree' 0 := by
  intro rounds
  induction rounds with
  | zero =>
      intro i tree hle hlt h
      exact ⟨tree, rfl, by rwa [show i = 0 by omega] at h⟩
  | succ rounds ih =>
      intro i tree hle hlt h
      by_cases hi : 0 < i
      · obtain ⟨tree', heq, h'⟩ := h.playLevel (show i / 2 ≤ i by omega) hlt
        obtain ⟨tree'', heq', h''⟩ := ih (by omega) (by omega) h'
        exact ⟨tree'', by simp only [Lsmkv.playLevels, if_pos hi, heq, Option.bind_eq_bind,
          Option.bind_some, heq'], h''⟩
      · exact ⟨tree, by simp [Lsmkv.playLevels, hi], by rwa [show i = 0 by omega] at h⟩

variable (key) in
/-- **The constructor builds a valid tree** over two or more iterators. -/
theorem create_valid (two : 2 ≤ mWay.length) :
    ∃ loser win, LoserTree.create key mWay = some ⟨mWay, loser⟩ ∧
      loser.length = mWay.length ∧
      Valid mWay.length (playerKey key mWay) (fun c => loser.getD c 0) win := by
  have hstart : BuiltFrom key mWay
      (List.replicate mWay.length 0, List.replicate mWay.length 0) mWay.length := by
    refine ⟨by simp, by simp, fun c => ?_, fun p hp _ hlt => absurd hlt (not_lt.mpr hp)⟩
    simp [List.getD_eq_getElem?_getD, List.getElem?_replicate]
    split <;> simp <;> omega
  obtain ⟨t₁, h₁, hb₁⟩ := BuiltFrom.playLeaves rfl
    (show mWay.length / 2 ≤ mWay.length - 1 by omega) (by omega)
    (show BuiltFrom key mWay _ _ by rwa [show mWay.length - 1 + 1 = mWay.length by omega])
  obtain ⟨t₂, h₂, hb₂⟩ := hb₁.playMiddle two
  obtain ⟨t₃, h₃, hb₃⟩ := hb₂.playLevels le_rfl (by omega)
  have hchampion := hb₃.getElem?_winner (c := 1) (by omega)
  have hzero : 0 < t₃.1.length := by rw [hb₃.loser_length]; omega
  refine ⟨t₃.1.set 0 (t₃.2.getD 1 0), winners mWay.length t₃.2, ?_, by simp [hb₃.loser_length],
    ?_, ?_, ?_⟩
  · simp only [LoserTree.create, Option.bind_eq_bind, h₁, Option.bind_some, h₂, h₃,
      hchampion, vecSet_of_lt hzero, Option.pure_def]
  · intro k hk
    rw [winners, if_pos (by omega)]
    omega
  · intro p hp1 hpn
    obtain ⟨hchildren, hbeats⟩ := hb₃.node p (Nat.zero_le p) hp1 hpn
    exact ⟨by simpa only [getD_set_of_ne (show p ≠ 0 by omega)] using hchildren,
      by simpa only [getD_set_of_ne (show p ≠ 0 by omega)] using hbeats⟩
  · rw [getD_set_self hzero, winners_of_lt (by omega)]

/-- With one iterator the constructor reads past the end of `winner`. -/
theorem create_singleton (l : List α) : LoserTree.create key [l] = none := by
  simp [LoserTree.create, Lsmkv.playLeaves, Lsmkv.playMiddle, Lsmkv.playLevels,
    setLoserWinner, vecSet, iterCmp_eq]

end Construction

/-! ## Replaying and draining -/

section Replay

variable {key} {mWay : List (List α)}

theorem update_getD {xs : List ℕ} {i v : ℕ} (h : i < xs.length) :
    (fun c => (xs.set i v).getD c 0) = Function.update (fun c => xs.getD c 0) i v := by
  funext c
  by_cases hc : c = i
  · subst hc
    rw [getD_set_self h, Function.update_self]
  · rw [getD_set_of_ne hc, Function.update_of_ne hc]

/-- The loop of `Adjust` climbs to the root. -/
theorem adjust_valid :
    ∀ {rounds c index : ℕ} {loser : List ℕ} {win : ℕ → ℕ}, c ≤ rounds → 1 ≤ c →
      c < 2 * mWay.length → loser.length = mWay.length → index < mWay.length →
      (∀ p, loser.getD p 0 < mWay.length) →
      Climb mWay.length (playerKey key mWay) (fun p => loser.getD p 0) win c index →
      ∃ loser' win', LoserTree.adjust key mWay rounds c index loser = some loser' ∧
        loser'.length = mWay.length ∧
        Valid mWay.length (playerKey key mWay) (fun p => loser'.getD p 0) win' := by
  intro rounds
  induction rounds with
  | zero => intro c index loser win hle hpos; omega
  | succ rounds ih =>
      intro c index loser win hle hpos hlt hlen hidx hbound hclimb
      have hzero : 0 < loser.length := by omega
      by_cases hc : 0 < c / 2
      · have hp : c / 2 < loser.length := by omega
        have htparent : loser[c / 2]? = some (loser.getD (c / 2) 0) := by
          rw [List.getD_eq_getElem _ _ hp, List.getElem?_eq_getElem hp]
        have hplayer : ∀ {i : ℕ}, i < mWay.length → mWay[i]? = some (mWay.getD i []) := by
          intro i hi
          rw [List.getD_eq_getElem _ _ hi, List.getElem?_eq_getElem hi]
        -- the climber wins against the loser at the parent, or takes its place there
        by_cases hcmp : playerKey key mWay index < playerKey key mWay (loser.getD (c / 2) 0)
        · have hmatch := hclimb.match (by omega) hlt (.inl ⟨rfl, rfl⟩) hcmp.le
          rw [Function.update_eq_self] at hmatch
          obtain ⟨loser', win', heq, hlen', hvalid⟩ :=
            ih (by omega) (by omega) (by omega) hlen hidx hbound hmatch
          refine ⟨loser', win', ?_, hlen', hvalid⟩
          simp only [LoserTree.adjust, if_pos hc, htparent, hplayer hidx,
            hplayer (hbound (c / 2)), Option.bind_eq_bind, Option.bind_some, iterCmp_eq]
          exact (if_pos (decide_eq_true hcmp)).trans heq
        · have hmatch := hclimb.match (by omega) hlt (.inr ⟨rfl, rfl⟩) (not_lt.mp hcmp)
          rw [← update_getD hp] at hmatch
          obtain ⟨loser', win', heq, hlen', hvalid⟩ :=
            ih (by omega) (by omega) (by omega)
              (show (loser.set (c / 2) index).length = mWay.length by simpa using hlen) (hbound (c / 2)) (fun p => by
                by_cases hpc : p = c / 2
                · subst hpc
                  rwa [getD_set_self hp]
                · rw [getD_set_of_ne hpc]
                  exact hbound p) hmatch
          refine ⟨loser', win', ?_, hlen', hvalid⟩
          simp only [LoserTree.adjust, if_pos hc, htparent, hplayer hidx,
            hplayer (hbound (c / 2)), Option.bind_eq_bind, Option.bind_some, iterCmp_eq,
            vecSet_of_lt hp]
          exact (if_neg (by rw [decide_eq_true_eq]; exact hcmp)).trans heq
      -- above the root: index 0 gets the winner of the whole tree
      · have hc1 : c = 1 := by omega
        subst hc1
        refine ⟨loser.set 0 index, win, ?_, by simpa using hlen, ?_⟩
        · simp [LoserTree.adjust, vecSet_of_lt hzero]
        · rw [update_getD hzero]
          exact hclimb.finish

/-- A tree over `mWay` whose vectors have the right length and whose losers form
a valid tournament. -/
structure LoserTree.WellFormed (key : α → κ) (t : LoserTree α) : Prop where
  two : 2 ≤ t.mWay.length
  length_eq : t.loser.length = t.mWay.length
  valid : ∃ win, Valid t.mWay.length (playerKey key t.mWay) (fun c => t.loser.getD c 0) win

/-- Every cell of a valid tree names a player. -/
theorem LoserTree.WellFormed.loser_lt {t : LoserTree α} (h : t.WellFormed key) (p : ℕ) :
    t.loser.getD p 0 < t.mWay.length := by
  obtain ⟨win, hvalid⟩ := h.valid
  have htwo := h.two
  by_cases hp : p < t.mWay.length
  · by_cases hp0 : p = 0
    · subst hp0
      exact hvalid.top_lt htwo
    · rcases (hvalid.node p (by omega) hp).children with ⟨-, hl⟩ | ⟨-, hl⟩
      · exact hl ▸ (hvalid.winner (c := 2 * p + 1) (by omega) (by omega)).1
      · exact hl ▸ (hvalid.winner (c := 2 * p) (by omega) (by omega)).1
  · rw [List.getD_eq_default _ _ (by have := h.length_eq; omega)]
    omega

theorem LoserTree.WellFormed.top {t : LoserTree α} (h : t.WellFormed key) :
    t.loser[0]? = some (t.loser.getD 0 0) := by
  have hlen := h.length_eq
  have htwo := h.two
  have hz : 0 < t.loser.length := by omega
  rw [List.getD_eq_getElem _ _ hz, List.getElem?_eq_getElem hz]

theorem LoserTree.WellFormed.topIter {t : LoserTree α} (h : t.WellFormed key) :
    t.topIter = some (t.mWay.getD (t.loser.getD 0 0) []) := by
  have hlt := h.loser_lt 0
  simp only [LoserTree.topIter, h.top, Option.bind_eq_bind, Option.bind_some]
  rw [List.getD_eq_getElem _ _ hlt, List.getElem?_eq_getElem hlt]

omit [LinearOrder κ] in
/-- Changing one iterator changes the value of one player. -/
theorem playerKey_set {i k : ℕ} (l : List α) (h : k ≠ i) :
    playerKey key (mWay.set i l) k = playerKey key mWay k := by
  simp [playerKey, List.getD_eq_getElem?_getD, List.getElem?_set_ne h.symm]

/-- **`increment` advances the champion and leaves a valid tree.** -/
theorem LoserTree.WellFormed.increment {t : LoserTree α} (h : t.WellFormed key) :
    ∃ t', t.increment key = some t' ∧ t'.WellFormed key ∧
      t'.mWay = t.mWay.set (t.loser.getD 0 0) (t.mWay.getD (t.loser.getD 0 0) []).tail := by
  obtain ⟨win, hvalid⟩ := h.valid
  have htwo := h.two
  have hlt := h.loser_lt 0
  have hiter : t.mWay[t.loser.getD 0 0]? = some (t.mWay.getD (t.loser.getD 0 0) []) := by
    rw [List.getD_eq_getElem _ _ hlt, List.getElem?_eq_getElem hlt]
  obtain ⟨mWay', hmWay⟩ : ∃ mWay', mWay' =
      t.mWay.set (t.loser.getD 0 0) (t.mWay.getD (t.loser.getD 0 0) []).tail := ⟨_, rfl⟩
  have hlen : mWay'.length = t.mWay.length := by simp [hmWay]
  have hclimb := hvalid.climb htwo (playerKey key mWay')
    fun k hk => by rw [hmWay, playerKey_set _ hk]
  rw [← hlen, Nat.add_comm] at hclimb
  obtain ⟨loser', win', hadjust, hlen', hvalid'⟩ := adjust_valid le_rfl
    (by omega) (by omega) (by rw [hlen]; exact h.length_eq) (by omega)
    (fun p => by rw [hlen]; exact h.loser_lt p) hclimb
  refine ⟨⟨mWay', loser'⟩, ?_, ⟨hlen ▸ htwo, hlen', win', hvalid'⟩, hmWay⟩
  simp only [LoserTree.increment, h.top, hiter, Option.bind_eq_bind, Option.bind_some,
    ← hmWay, hadjust, Option.pure_def]

/-- The sources a tree merges, indexed by player. -/
def LoserTree.sources (mWay : List (List α)) (i : ℕ) : List α := mWay.getD i []

theorem LoserTree.sources_set {i : ℕ} (h : i < mWay.length) (l : List α) :
    sources (mWay.set i l) = Function.update (sources mWay) i l := by
  funext c
  by_cases hc : c = i
  · subst hc
    simp [sources, List.getD_eq_getElem?_getD, List.getElem?_set_self h]
  · simp [sources, List.getD_eq_getElem?_getD, List.getElem?_set_ne (Ne.symm hc),
      Function.update_of_ne hc]

/-- The champion's key is least among the heads of all sources. -/
theorem LoserTree.WellFormed.least {t : LoserTree α} (h : t.WellFormed key) {x : α}
    {rest : List α} (head : sources t.mWay (t.loser.getD 0 0) = x :: rest) (j : ℕ) :
    ∀ y ∈ (sources t.mWay j).head?, key x ≤ key y := by
  intro y hy
  obtain ⟨win, hvalid⟩ := h.valid
  by_cases hj : j < t.mWay.length
  · have hle := hvalid.least hj
    cases hs : sources t.mWay j with
    | nil => simp [hs] at hy
    | cons z zs =>
        simp only [hs, List.head?_cons, Option.mem_some_iff] at hy
        subst hy
        simp only [playerKey] at hle
        rw [show t.mWay.getD (t.loser.getD 0 0) [] = x :: rest from head,
          show t.mWay.getD j [] = z :: zs from hs] at hle
        simpa [headKey] using hle
  · rw [sources, List.getD_eq_default _ _ (by omega)] at hy
    simp at hy

/-- When the champion is exhausted, all sources are. -/
theorem LoserTree.WellFormed.empty {t : LoserTree α} (h : t.WellFormed key)
    (head : sources t.mWay (t.loser.getD 0 0) = []) (j : ℕ) : sources t.mWay j = [] := by
  obtain ⟨win, hvalid⟩ := h.valid
  by_cases hj : j < t.mWay.length
  · have hle := hvalid.least hj
    cases hs : sources t.mWay j with
    | nil => rfl
    | cons z zs =>
        simp only [playerKey] at hle
        rw [show t.mWay.getD (t.loser.getD 0 0) [] = [] from head,
          show t.mWay.getD j [] = z :: zs from hs] at hle
        simp [headKey] at hle
  · rw [sources, List.getD_eq_default _ _ (by omega)]

theorem length_flatten_set_tail {i : ℕ} {x : α} {rest : List α}
    (h : mWay[i]? = some (x :: rest)) :
    (mWay.set i rest).flatten.length + 1 = mWay.flatten.length := by
  induction mWay generalizing i with
  | nil => simp at h
  | cons l ls ih =>
      cases i with
      | zero =>
          simp only [List.getElem?_cons_zero, Option.some.injEq] at h
          subst h
          simp
      | succ i =>
          rw [List.getElem?_cons_succ] at h
          have := ih h
          simp only [List.set_cons_succ, List.flatten_cons, List.length_append]
          omega

/-- **Draining a well-formed tree is a head merge of its sources.** -/
theorem LoserTree.WellFormed.drain {rounds : ℕ} {t : LoserTree α} (h : t.WellFormed key)
    (enough : t.mWay.flatten.length < rounds) :
    ∃ out, t.drain key rounds = some out ∧ HeadMerge key (sources t.mWay) out := by
  induction rounds generalizing t with
  | zero => omega
  | succ rounds ih =>
      cases hiter : sources t.mWay (t.loser.getD 0 0) with
      | nil =>
          refine ⟨[], ?_, .done (h.empty hiter)⟩
          rw [LoserTree.drain, h.topIter]
          simp only [show t.mWay.getD (t.loser.getD 0 0) [] = [] from hiter,
            Option.bind_eq_bind, Option.bind_some, Option.pure_def]
      | cons x rest =>
          obtain ⟨t', hinc, hwf, hmWay⟩ := h.increment
          have hget : t.mWay.getD (t.loser.getD 0 0) [] = x :: rest := hiter
          rw [hget, List.tail_cons] at hmWay
          have hcell : t.mWay[t.loser.getD 0 0]? = some (x :: rest) := by
            rw [← hget, List.getD_eq_getElem _ _ (h.loser_lt 0),
              List.getElem?_eq_getElem (h.loser_lt 0)]
          have hshorter := length_flatten_set_tail hcell
          obtain ⟨out, hout, hmerge⟩ := ih hwf (by rw [hmWay]; omega)
          refine ⟨x :: out, ?_, .pick _ x rest hiter (h.least hiter) ?_⟩
          · rw [LoserTree.drain, h.topIter]
            simp only [hget, Option.bind_eq_bind, Option.bind_some, hinc, hout,
              Option.pure_def]
          · rwa [hmWay, sources_set (h.loser_lt 0)] at hmerge

variable (key) in
/-- **The merge of a compaction.**  Over two or more iterators the loser tree stays
in bounds, terminates, and delivers a head merge of the iterators. -/
theorem visit_headMerge (two : 2 ≤ mWay.length) :
    ∃ out, LoserTree.visit key mWay = some out ∧
      HeadMerge key (LoserTree.sources mWay) out := by
  obtain ⟨loser, win, hcreate, hlen, hvalid⟩ := create_valid key two
  have hwf : LoserTree.WellFormed key ⟨mWay, loser⟩ := ⟨two, hlen, win, hvalid⟩
  obtain ⟨out, hdrain, hmerge⟩ := hwf.drain (Nat.lt_succ_self mWay.flatten.length)
  exact ⟨out, by simp only [LoserTree.visit, hcreate, Option.bind_eq_bind,
    Option.bind_some, hdrain], hmerge⟩

/-- A merge of at least one iterator that stays in bounds has two. -/
theorem two_le_of_visit (ne : mWay ≠ []) {out : List α}
    (h : LoserTree.visit key mWay = some out) : 2 ≤ mWay.length := by
  match mWay, ne with
  | [l], _ => simp [LoserTree.visit, create_singleton] at h
  | _ :: _ :: _, _ => simp

theorem LoserTree.sum_sources (mWay : List (List α)) :
    ∑ i ∈ Finset.range mWay.length, (sources mWay i : Multiset α) = mWay.flatten := by
  induction mWay with
  | nil => simp
  | cons l ls ih =>
      rw [List.length_cons, Finset.sum_range_succ', List.flatten_cons, ← Multiset.coe_add, ← ih,
        add_comm]
      rfl

/-- Every element of every iterator is visited exactly once. -/
theorem visit_perm (two : 2 ≤ mWay.length) {out : List α}
    (h : LoserTree.visit key mWay = some out) : out.Perm mWay.flatten := by
  obtain ⟨out', hout', hmerge⟩ := visit_headMerge key two
  obtain rfl : out' = out := Option.some.inj (hout'.symm.trans h)
  rw [← Multiset.coe_eq_coe, ← LoserTree.sum_sources]
  refine hmerge.multiset_eq _ fun i hi => ?_
  simp only [Finset.mem_range, not_lt] at hi
  simp [LoserTree.sources, List.getElem?_eq_none hi]

variable (key) in
/-- **The merge visits every element of every iterator once**: what is taken from an iterator is
the iterator, in its order.  Strictly ascending iterators without a common key are visited in
strictly ascending order. -/
theorem visit_interleaves (two : 2 ≤ mWay.length) :
    ∃ picks : List (ℕ × α), LoserTree.visit key mWay = some (picks.map Prod.snd) ∧
      (∀ i, (picks.filter fun p => decide (p.1 = i)).map Prod.snd = mWay.getD i []) ∧
      ((∀ l ∈ mWay, l.Pairwise fun a b => key a < key b) →
        (mWay.Pairwise fun l l' => ∀ a ∈ l, ∀ b ∈ l', key a ≠ key b) →
        (picks.map Prod.snd).Pairwise fun a b => key a < key b) := by
  obtain ⟨out, hvisit, hmerge⟩ := visit_headMerge key two
  obtain ⟨picks, rfl, hsrcs⟩ := hmerge.exists_picks
  refine ⟨picks, hvisit, hsrcs, fun hsorted hapart => hmerge.pairwise_lt (fun i => ?_) ?_⟩
  · by_cases hi : i < mWay.length
    · rw [LoserTree.sources, List.getD_eq_getElem _ _ hi]
      exact hsorted _ (List.getElem_mem hi)
    · rw [LoserTree.sources, List.getD_eq_default _ _ (not_lt.mp hi)]
      exact List.Pairwise.nil
  · have hget : ∀ i, ∀ a ∈ LoserTree.sources mWay i, ∃ hi : i < mWay.length, a ∈ mWay[i] := by
      intro i a ha
      by_cases hi : i < mWay.length
      · exact ⟨hi, by rwa [LoserTree.sources, List.getD_eq_getElem _ _ hi] at ha⟩
      · rw [LoserTree.sources, List.getD_eq_default _ _ (not_lt.mp hi)] at ha
        simp at ha
    intro i j hne a ha b hb
    obtain ⟨hi, ha⟩ := hget i a ha
    obtain ⟨hj, hb⟩ := hget j b hb
    rcases Nat.lt_or_gt_of_ne hne with hlt | hlt
    · exact List.pairwise_iff_getElem.mp hapart i j hi hj hlt a ha b hb
    · exact (List.pairwise_iff_getElem.mp hapart j i hj hi hlt b hb a ha).symm

/-- Three inputs of byte strings, one of them empty. -/
theorem visit_interleaves_three :
    ∃ picks : List (ℕ × Bytes),
      LoserTree.visit id [[[1], [3]], [], [[2]]] = some (picks.map Prod.snd) ∧
      (∀ i, (picks.filter fun p => decide (p.1 = i)).map Prod.snd
        = [[[1], [3]], [], [[2]]].getD i []) ∧
      (picks.map Prod.snd).Pairwise fun a b => a < b := by
  have htwo : 2 ≤ ([[[1], [3]], [], [[2]]] : List (List Bytes)).length := by decide
  obtain ⟨picks, hvisit, hsrcs, hsorted⟩ := visit_interleaves id htwo
  exact ⟨picks, hvisit, hsrcs, hsorted (by decide) (by decide)⟩

end Replay

end Lsmkv
