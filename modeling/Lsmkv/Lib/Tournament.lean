import Mathlib.Order.Basic
import Mathlib.Tactic

/-!
# Loser trees

A tournament over `n` players is a complete binary tree in an array: node `p` has
the children `2p` and `2p + 1`, the inner nodes are `1 … n - 1` and the leaf of
player `k` is node `n + k`.  At an inner node the winners of the two children
play; the tree stores the **loser** there, and the winner of the whole tournament
in cell `0`.

`Valid n v loser win` says that `loser` is such a tree for the values `v`, with
`win c` the winner of the subtree at `c` (not stored, hence a separate argument).
`Valid.least` is what a tree is for: its champion has the least value.

Replaying after the champion's value changed climbs from its leaf to the root.
`Climb` is the invariant of that loop: everything off the remaining path is a
valid tree already, and along the path every stored loser is the winner of the
sibling subtree.  `Valid.climb`, `Climb.step` and `Climb.finish` are the entry,
the body and the exit of the loop.
-/

namespace Tournament

variable {β : Type*} [LinearOrder β] {n : ℕ} {v v' : ℕ → β} {loser win : ℕ → ℕ}

/-- Node `c` lies on the path from node `d` to the root (`d` itself included). -/
def Above (c d : ℕ) : Prop := ∃ i, d / 2 ^ i = c

/-- The other child of the same parent. -/
def sibling (c : ℕ) : ℕ := if c % 2 = 0 then c + 1 else c - 1

/-- At node `p` the winners of the children played, the loser is stored and does
not beat the winner. -/
structure IsNode (v : ℕ → β) (loser win : ℕ → ℕ) (p : ℕ) : Prop where
  children : (win p = win (2 * p) ∧ loser p = win (2 * p + 1)) ∨
    (win p = win (2 * p + 1) ∧ loser p = win (2 * p))
  beats : v (win p) ≤ v (loser p)

/-- `loser` is a loser tree for the values `v`, and `win` its winners. -/
structure Valid (n : ℕ) (v : ℕ → β) (loser win : ℕ → ℕ) : Prop where
  leaf : ∀ k, k < n → win (n + k) = k
  node : ∀ p, 1 ≤ p → p < n → IsNode v loser win p
  top : loser 0 = win 1

/-! ## Paths -/

theorem Above.refl (c : ℕ) : Above c c := ⟨0, by simp⟩

theorem Above.half {c d : ℕ} (h : Above c d) : Above (c / 2) d := by
  obtain ⟨i, hi⟩ := h
  exact ⟨i + 1, by rw [pow_succ, ← Nat.div_div_eq_div_mul, hi]⟩

theorem Above.le {c d : ℕ} (h : Above c d) : c ≤ d := by
  obtain ⟨i, rfl⟩ := h
  exact Nat.div_le_self _ _

/-- A node above `d` is `d` or lies above the parent of `d`. -/
theorem Above.eq_or_half {c d : ℕ} (h : Above c d) : c = d ∨ Above c (d / 2) := by
  obtain ⟨i, hi⟩ := h
  cases i with
  | zero => exact .inl (by simpa using hi.symm)
  | succ i =>
      exact .inr ⟨i, by rw [Nat.div_div_eq_div_mul, ← pow_succ', hi]⟩

theorem Above.trans {c d e : ℕ} (hcd : Above c d) (hde : Above d e) : Above c e := by
  obtain ⟨i, hi⟩ := hcd
  obtain ⟨j, hj⟩ := hde
  exact ⟨j + i, by rw [pow_add, ← Nat.div_div_eq_div_mul, hj, hi]⟩

/-- At one depth a path has one node. -/
theorem Above.unique {c d e : ℕ} (hc : Above c e) (hd : Above d e)
    (half : c / 2 = d / 2) (pos : 1 ≤ c / 2) : c = d := by
  obtain ⟨i, hi⟩ := hc
  obtain ⟨j, hj⟩ := hd
  rcases lt_trichotomy i j with hlt | rfl | hgt
  · obtain ⟨r, rfl⟩ := Nat.exists_eq_add_of_lt hlt
    rw [show i + r + 1 = i + (r + 1) by ring, pow_add, ← Nat.div_div_eq_div_mul, hi,
      pow_succ', ← Nat.div_div_eq_div_mul] at hj
    have := Nat.div_le_self (c / 2) (2 ^ r)
    omega
  · omega
  · obtain ⟨r, rfl⟩ := Nat.exists_eq_add_of_lt hgt
    rw [show j + r + 1 = j + (r + 1) by ring, pow_add, ← Nat.div_div_eq_div_mul, hj,
      pow_succ', ← Nat.div_div_eq_div_mul] at hi
    have := Nat.div_le_self (d / 2) (2 ^ r)
    omega

theorem half_sibling {c : ℕ} (h : 2 ≤ c) : sibling c / 2 = c / 2 := by
  unfold sibling
  split <;> omega

theorem sibling_ne {c : ℕ} (h : 2 ≤ c) : sibling c ≠ c := by
  unfold sibling
  split <;> omega

theorem sibling_lt {c : ℕ} (h : c < 2 * n) : sibling c < 2 * n := by
  unfold sibling
  split <;> omega

/-- The two children of a node, with either of them named first. -/
theorem child_cases {c : ℕ} (h : 2 ≤ c) :
    (c = 2 * (c / 2) ∧ sibling c = 2 * (c / 2) + 1) ∨
      (c = 2 * (c / 2) + 1 ∧ sibling c = 2 * (c / 2)) := by
  unfold sibling
  split <;> omega

/-! ## The champion -/

/-- The winner of a subtree is a player of that subtree. -/
theorem Valid.winner (h : Valid n v loser win) {c : ℕ} (pos : 1 ≤ c) (lt : c < 2 * n) :
    win c < n ∧ Above c (n + win c) := by
  by_cases hc : n ≤ c
  · obtain ⟨k, rfl⟩ := Nat.exists_eq_add_of_le hc
    rw [h.leaf k (by omega)]
    exact ⟨by omega, Above.refl _⟩
  · push Not at hc
    -- a child's winner is the node's winner, and the child's path goes through the node
    have key : ∀ d, d / 2 = c → win c = win d → win d < n ∧ Above d (n + win d) →
        win c < n ∧ Above c (n + win c) := by
      intro d hd hwin hsub
      rw [hwin]
      exact ⟨hsub.1, hd ▸ hsub.2.half⟩
    rcases (h.node c pos hc).children with ⟨hw, -⟩ | ⟨hw, -⟩
    · exact key (2 * c) (by omega) hw (h.winner (by omega) (by omega))
    · exact key (2 * c + 1) (by omega) hw (h.winner (by omega) (by omega))
termination_by 2 * n - c

theorem Valid.beats_child (h : Valid n v loser win) {c : ℕ} (two : 2 ≤ c) (lt : c < 2 * n) :
    v (win (c / 2)) ≤ v (win c) := by
  obtain ⟨hchildren, hbeats⟩ := h.node (c / 2) (by omega) (by omega)
  rcases Nat.mod_two_eq_zero_or_one c with heven | hodd
  · rw [show 2 * (c / 2) = c by omega] at hchildren
    rcases hchildren with ⟨hw, -⟩ | ⟨-, hl⟩
    · rw [hw]
    · rwa [hl] at hbeats
  · rw [show 2 * (c / 2) + 1 = c by omega] at hchildren
    rcases hchildren with ⟨-, hl⟩ | ⟨hw, -⟩
    · rwa [hl] at hbeats
    · rw [hw]

theorem Valid.root_le (h : Valid n v loser win) {c : ℕ} (pos : 1 ≤ c) (lt : c < 2 * n) :
    v (win 1) ≤ v (win c) := by
  induction c using Nat.strong_induction_on with
  | _ c ih =>
      by_cases hc : c = 1
      · rw [hc]
      · exact (ih (c / 2) (by omega) (by omega) (by omega)).trans
          (h.beats_child (by omega) lt)

/-- **The champion has the least value.** -/
theorem Valid.least (h : Valid n v loser win) {k : ℕ} (lt : k < n) :
    v (loser 0) ≤ v k := by
  have hroot := h.root_le (c := n + k) (by omega) (by omega)
  rwa [h.leaf k lt, ← h.top] at hroot

theorem Valid.top_lt (h : Valid n v loser win) (two : 2 ≤ n) : loser 0 < n := by
  rw [h.top]
  exact (h.winner le_rfl (by omega)).1

/-- The champion won every match on its path. -/
theorem Valid.wins_path (h : Valid n v loser win) (two : 2 ≤ n) {c : ℕ} (pos : 1 ≤ c)
    (above : Above c (n + loser 0)) : win c = loser 0 := by
  induction c using Nat.strong_induction_on with
  | _ c ih =>
      have htop := h.top_lt two
      have hle := above.le
      by_cases hc : c = 1
      · rw [hc, h.top]
      · have hp : win (c / 2) = loser 0 :=
          ih (c / 2) (by omega) (by omega) above.half
        -- the child the champion came from is the one on its own path
        have key : ∀ d, d / 2 = c / 2 → win (c / 2) = win d → 1 ≤ d → d < 2 * n →
            win c = loser 0 := by
          intro d hd hwin hd1 hdn
          have habove := (h.winner hd1 hdn).2
          rw [← hwin, hp] at habove
          rw [Above.unique above habove hd.symm (by omega), ← hwin, hp]
        rcases (h.node (c / 2) (by omega) (by omega)).children with ⟨hw, -⟩ | ⟨hw, -⟩
        · exact key _ (by omega) hw (by omega) (by omega)
        · exact key _ (by omega) hw (by omega) (by omega)

/-- Along the champion's path every stored loser is the sibling's winner. -/
theorem Valid.loser_path (h : Valid n v loser win) (two : 2 ≤ n) {c : ℕ} (two' : 2 ≤ c)
    (above : Above c (n + loser 0)) : loser (c / 2) = win (sibling c) := by
  have htop := h.top_lt two
  have hle := above.le
  have hc : win c = loser 0 := h.wins_path two (by omega) above
  have hp : win (c / 2) = loser 0 := h.wins_path two (by omega) above.half
  -- the champion is not in the sibling's subtree
  have hne : win (sibling c) ≠ loser 0 := by
    intro heq
    have hsib := (h.winner (c := sibling c) (by have := half_sibling two'; omega)
      (sibling_lt (by omega))).2
    rw [heq] at hsib
    exact sibling_ne two' (Above.unique hsib above (half_sibling two') (by
      rw [half_sibling two']; omega))
  rcases child_cases two' with ⟨hself, hother⟩ | ⟨hself, hother⟩
  · rcases (h.node (c / 2) (by omega) (by omega)).children with ⟨-, hl⟩ | ⟨hw, -⟩
    · rw [hother, hl]
    · exact absurd (by rw [hother, ← hw, hp]) hne
  · rcases (h.node (c / 2) (by omega) (by omega)).children with ⟨hw, -⟩ | ⟨-, hl⟩
    · exact absurd (by rw [hother, ← hw, hp]) hne
    · rw [hother, hl]

/-! ## Replaying a path -/

/-- The invariant of the replay when node `c` has been reached: `index` is the
winner of the subtree at `c`, all nodes not strictly above `c` are settled, and
along the rest of the path the stored losers are the siblings' winners. -/
structure Climb (n : ℕ) (v : ℕ → β) (loser win : ℕ → ℕ) (c index : ℕ) : Prop where
  leaf : ∀ k, k < n → win (n + k) = k
  node : ∀ p, 1 ≤ p → p < n → ¬ Above p (c / 2) → IsNode v loser win p
  path : ∀ d, 2 ≤ d → Above d c → loser (d / 2) = win (sibling d)
  index_eq : index = win c

/-- Entering the replay: only the champion's own value has changed. -/
theorem Valid.climb (h : Valid n v loser win) (two : 2 ≤ n) (v' : ℕ → β)
    (agree : ∀ k, k ≠ loser 0 → v' k = v k) :
    Climb n v' loser win (n + loser 0) (loser 0) where
  leaf := h.leaf
  node := by
    intro p hp1 hpn hpath
    have hoff : ∀ d, 1 ≤ d → d < 2 * n → d / 2 = p → win d ≠ loser 0 := by
      intro d hd1 hdn hdp heq
      have habove := (h.winner hd1 hdn).2
      rw [heq] at habove
      refine hpath ?_
      rcases (hdp ▸ habove.half).eq_or_half with heq' | hhalf
      · have := h.top_lt two
        omega
      · exact hhalf
    obtain ⟨hchildren, hbeats⟩ := h.node p hp1 hpn
    have hleft := hoff (2 * p) (by omega) (by omega) (by omega)
    have hright := hoff (2 * p + 1) (by omega) (by omega) (by omega)
    refine ⟨hchildren, ?_⟩
    rcases hchildren with ⟨hw, hl⟩ | ⟨hw, hl⟩
    · rwa [agree _ (hw ▸ hleft), agree _ (hl ▸ hright)]
    · rwa [agree _ (hw ▸ hright), agree _ (hl ▸ hleft)]
  path := fun d hd habove => h.loser_path two hd habove
  index_eq := (h.leaf _ (h.top_lt two)).symm

/-- One match of the replay, with its outcome (`winner'`, `loser'`) left open. -/
theorem Climb.match {c index winner' loser' : ℕ} (h : Climb n v loser win c index)
    (two : 2 ≤ c) (lt : c < 2 * n)
    (outcome : (winner' = index ∧ loser' = loser (c / 2)) ∨
      (winner' = loser (c / 2) ∧ loser' = index))
    (beats : v winner' ≤ v loser') :
    Climb n v (Function.update loser (c / 2) loser') (Function.update win (c / 2) winner')
      (c / 2) winner' where
  leaf := by
    intro k hk
    rw [Function.update_of_ne (by omega)]
    exact h.leaf k hk
  node := by
    intro p hp1 hpn hpath
    by_cases heq : p = c / 2
    · subst heq
      have hsib := h.path c two (Above.refl c)
      -- the node of the match: its children are the climber and its sibling
      rcases child_cases two with ⟨hself, hother⟩ | ⟨hself, hother⟩
      · constructor
        · rw [Function.update_self, Function.update_self,
            Function.update_of_ne (by omega : 2 * (c / 2) ≠ c / 2),
            Function.update_of_ne (by omega : 2 * (c / 2) + 1 ≠ c / 2),
            ← hother, ← hself, ← hsib, ← h.index_eq]
          exact outcome
        · rw [Function.update_self, Function.update_self]
          exact beats
      · constructor
        · rw [Function.update_self, Function.update_self,
            Function.update_of_ne (by omega : 2 * (c / 2) ≠ c / 2),
            Function.update_of_ne (by omega : 2 * (c / 2) + 1 ≠ c / 2),
            ← hself, ← hother, ← hsib, ← h.index_eq]
          exact outcome.symm
        · rw [Function.update_self, Function.update_self]
          exact beats
    -- a node off the path, whose match was played before
    · have hold : ¬ Above p (c / 2) := by
        intro habove
        rcases habove.eq_or_half with heq' | hhalf
        · exact heq heq'
        · exact hpath hhalf
      have hleft : 2 * p ≠ c / 2 := by
        intro heq'
        exact hpath ⟨0, by simp; omega⟩
      have hright : 2 * p + 1 ≠ c / 2 := by
        intro heq'
        exact hpath ⟨0, by simp; omega⟩
      obtain ⟨hchildren, hbeats⟩ := h.node p hp1 hpn hold
      constructor
      · rwa [Function.update_of_ne heq, Function.update_of_ne heq,
          Function.update_of_ne hleft, Function.update_of_ne hright]
      · rwa [Function.update_of_ne heq, Function.update_of_ne heq]
  path := by
    intro d hd habove
    have hle := habove.le
    -- above the match nothing is written
    have hhalf : d / 2 ≠ c / 2 := by omega
    have hsib : sibling d ≠ c / 2 := by
      intro heq
      rcases habove.eq_or_half with heq' | hup
      · exact sibling_ne hd (heq.trans heq'.symm)
      · have := hup.le
        unfold sibling at heq
        split at heq <;> omega
    rw [Function.update_of_ne hhalf, Function.update_of_ne hsib]
    exact h.path d hd (habove.trans ((Above.refl c).half))
  index_eq := by rw [Function.update_self]

/-- Leaving the replay at the root. -/
theorem Climb.finish {index : ℕ} (h : Climb n v loser win 1 index) :
    Valid n v (Function.update loser 0 index) win where
  leaf := h.leaf
  node := by
    intro p hp1 hpn
    have hpath : ¬ Above p (1 / 2) := fun habove => by
      have := habove.le
      omega
    obtain ⟨hchildren, hbeats⟩ := h.node p hp1 hpn hpath
    constructor
    · rwa [Function.update_of_ne (by omega)]
    · rwa [Function.update_of_ne (by omega)]
  top := by rw [Function.update_self, h.index_eq]

end Tournament
