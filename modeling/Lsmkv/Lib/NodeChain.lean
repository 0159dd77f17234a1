import Mathlib.Data.List.Nodup
import Mathlib.Order.Nat
import Mathlib.Logic.Function.Basic
import Mathlib.Logic.Relation

/-!
# Chains of nodes

Nodes with a next pointer, which is null at the end.  From a first node the pointers run
through a list of nodes (`Chain`), each of them once (`Chain.nodup`); a new node is linked at
the end by one store to the node whose pointer is null (`Chain.append`).  A pointer that is not null is
never changed, so whatever could be reached stays so (`Reaches.mono`), and positions in the
chain are a measure of how far a pointer into it has come.
-/

namespace NodeChain

variable {ν : Type*}

/-- One node is reached from another through next pointers. -/
def Reaches (next : ν → Option ν) : ν → ν → Prop :=
  Relation.ReflTransGen fun x y => next x = some y

/-- The nodes behind `first` are those of the list, in order, and the last one has a null
pointer. -/
def Chain (next : ν → Option ν) (first : ν) (nodes : List ν) : Prop :=
  ∀ (i : ℕ) (x : ν), (first :: nodes)[i]? = some x → next x = nodes[i]?

variable {next : ν → Option ν} {first x y : ν} {nodes : List ν} {i j : ℕ}

theorem Chain.nil (h : next first = none) : Chain next first [] := by
  intro i x hx
  obtain rfl : x = first := by
    have := List.mem_of_getElem? hx
    simpa using this
  simpa using h

/-- The node behind a node. -/
theorem Chain.succ (h : Chain next first nodes) (at_x : (first :: nodes)[i]? = some x)
    (link : next x = some y) : (first :: nodes)[i + 1]? = some y := by
  rw [List.getElem?_cons_succ, ← h i x at_x, link]

/-- A node with a null pointer is the last one. -/
theorem Chain.last (h : Chain next first nodes) (at_x : (first :: nodes)[i]? = some x)
    (null : next x = none) : i = nodes.length := by
  have hnone : nodes[i]? = none := by rw [← h i x at_x, null]
  have hle := List.getElem?_eq_none_iff.mp hnone
  obtain ⟨hlt, -⟩ := List.getElem?_eq_some_iff.mp at_x
  simp only [List.length_cons] at hlt
  omega

/-- A node that is not the last one has a pointer. -/
theorem Chain.next_ne_none (h : Chain next first nodes) (at_x : (first :: nodes)[i]? = some x)
    (lt : i < nodes.length) : next x ≠ none := by
  rw [h i x at_x]
  simpa using lt

/-- A later node is reached from an earlier one. -/
theorem Chain.reaches (h : Chain next first nodes) (le : i ≤ j)
    (at_x : (first :: nodes)[i]? = some x) (at_y : (first :: nodes)[j]? = some y) :
    Reaches next x y := by
  induction j, le using Nat.le_induction generalizing y with
  | base =>
      obtain rfl : x = y := Option.some.inj (at_x.symm.trans at_y)
      exact .refl
  | succ j _ ih =>
      obtain ⟨hlt, -⟩ := List.getElem?_eq_some_iff.mp at_y
      obtain ⟨z, hz⟩ : ∃ z, (first :: nodes)[j]? = some z :=
        ⟨_, List.getElem?_eq_getElem (by omega)⟩
      refine (ih hz).tail ?_
      rw [h j z hz, ← at_y, List.getElem?_cons_succ]

/-- The chain from a node on. -/
theorem Chain.drop (h : Chain next first nodes) (at_x : (first :: nodes)[i]? = some x) :
    Chain next x (nodes.drop i) := by
  obtain ⟨hlt, hx⟩ := List.getElem?_eq_some_iff.mp at_x
  have hdrop : x :: nodes.drop i = (first :: nodes).drop i := by
    rw [← List.getElem_cons_drop hlt, hx, List.drop_succ_cons]
  intro k z hz
  rw [hdrop, List.getElem?_drop] at hz
  rw [List.getElem?_drop]
  exact h (i + k) z hz

/-- **A chain has no repetitions**: two equal nodes would have equal ends. -/
theorem Chain.nodup (h : Chain next first nodes) : (first :: nodes).Nodup := by
  have hshift : ∀ k i j : ℕ, (first :: nodes)[i]? = (first :: nodes)[j]? →
      (first :: nodes)[i + k]? = (first :: nodes)[j + k]? := by
    intro k i j heq
    induction k with
    | zero => exact heq
    | succ k ih =>
        rcases hx : (first :: nodes)[i + k]? with - | x
        · rw [hx] at ih
          have hi := List.getElem?_eq_none_iff.mp hx
          have hj := List.getElem?_eq_none_iff.mp ih.symm
          rw [List.getElem?_eq_none (by omega), List.getElem?_eq_none (by omega)]
        · rw [hx] at ih
          rw [← Nat.add_assoc, ← Nat.add_assoc, List.getElem?_cons_succ, List.getElem?_cons_succ,
            ← h _ x hx, ← h _ x ih.symm]
  refine List.nodup_iff_getElem?_ne_getElem?.mpr fun i j hij hj heq => ?_
  have hend := hshift ((first :: nodes).length - j) i j heq
  rw [Nat.add_sub_cancel' hj.le, List.getElem?_eq_none le_rfl, List.getElem?_eq_none_iff] at hend
  omega

/-- The position of a node is unique. -/
theorem Chain.index_unique (h : Chain next first nodes) (at_x : (first :: nodes)[i]? = some x)
    (at_x' : (first :: nodes)[j]? = some x) : i = j := by
  obtain ⟨hi, hx⟩ := List.getElem?_eq_some_iff.mp at_x
  obtain ⟨hj, hx'⟩ := List.getElem?_eq_some_iff.mp at_x'
  exact (h.nodup.getElem_inj_iff).mp (hx.trans hx'.symm)

/-- The node behind a part of the chain. -/
theorem getElem?_getLastD (first : ν) (l : List ν) (rest : List ν) :
    (first :: (l ++ rest))[l.length]? = some (l.getLastD first) := by
  induction l generalizing first with
  | nil => rfl
  | cons x l ih =>
      rw [List.cons_append, List.length_cons, List.getElem?_cons_succ, ih, List.getLastD_cons]

/-- The last node of a first part points to the second part. -/
theorem Chain.next_getLastD {l₁ l₂ : List ν} (h : Chain next first (l₁ ++ l₂)) :
    next (l₁.getLastD first) = l₂.head? := by
  rw [h _ _ (getElem?_getLastD first l₁ l₂), List.getElem?_append_right le_rfl, Nat.sub_self,
    List.head?_eq_getElem?]

section Store

variable [DecidableEq ν]

/-- **A node is linked in**, behind the last node of a first part: it takes over the pointer of
that node, which is set to it. -/
theorem Chain.insert {l₁ l₂ : List ν} (h : Chain next first (l₁ ++ l₂)) (new : y ∉ first :: (l₁ ++ l₂)) :
    Chain (Function.update (Function.update next y (next (l₁.getLastD first))) (l₁.getLastD first)
      (some y)) first (l₁ ++ y :: l₂) := by
  have hlast := getElem?_getLastD first l₁ l₂
  have hne : y ≠ l₁.getLastD first := fun heq => new (heq ▸ List.mem_of_getElem? hlast)
  intro i z hz
  rcases lt_trichotomy i l₁.length with hlt | rfl | hgt
  · -- Before the new node.
    have hold : (first :: (l₁ ++ l₂))[i]? = some z := by
      rw [← List.cons_append, List.getElem?_append_left (by simp only [List.length_cons]; omega)] at hz ⊢
      exact hz
    have hzp : z ≠ l₁.getLastD first := fun heq => hlt.ne (h.index_unique (heq ▸ hold) hlast)
    have hzy : z ≠ y := fun heq => new (heq ▸ List.mem_of_getElem? hold)
    rw [Function.update_of_ne hzp, Function.update_of_ne hzy, h i z hold,
      List.getElem?_append_left hlt, List.getElem?_append_left hlt]
  · -- The node before it.
    obtain rfl : l₁.getLastD first = z :=
      Option.some.inj ((getElem?_getLastD first l₁ (y :: l₂)).symm.trans hz)
    rw [Function.update_self, List.getElem?_append_right le_rfl, Nat.sub_self, List.getElem?_cons_zero]
  · obtain ⟨k, rfl⟩ : ∃ k, i = l₁.length + 1 + k := ⟨i - (l₁.length + 1), by omega⟩
    have hsplit : first :: (l₁ ++ y :: l₂) = (first :: l₁) ++ (y :: l₂) := rfl
    have hindex : l₁.length + 1 + k - (first :: l₁).length = k := by simp
    have htail : (l₁ ++ y :: l₂)[l₁.length + 1 + k]? = l₂[k]? := by
      rw [List.getElem?_append_right (by omega),
        show l₁.length + 1 + k - l₁.length = k + 1 by omega, List.getElem?_cons_succ]
    rw [hsplit, List.getElem?_append_right (by simp only [List.length_cons]; omega), hindex] at hz
    rw [htail]
    cases k with
    | zero =>
        -- The new node.
        obtain rfl : y = z := Option.some.inj hz
        rw [Function.update_of_ne hne, Function.update_self, h.next_getLastD, List.head?_eq_getElem?]
    | succ k =>
        rw [List.getElem?_cons_succ] at hz
        have hold : (first :: (l₁ ++ l₂))[l₁.length + 1 + k]? = some z := by
          rw [← List.cons_append, List.getElem?_append_right (by simp), ← hz]
          simp
        have hzp : z ≠ l₁.getLastD first := fun heq => by
          have := h.index_unique (heq ▸ hold) hlast
          omega
        have hzy : z ≠ y := fun heq => new (heq ▸ List.mem_of_getElem? hold)
        rw [Function.update_of_ne hzp, Function.update_of_ne hzy, h _ z hold,
          List.getElem?_append_right (by omega),
          show l₁.length + 1 + k - l₁.length = k + 1 by omega]

/-- **A node is linked at the end.** -/
theorem Chain.append (h : Chain next first nodes) (at_x : x ∈ first :: nodes)
    (null : next x = none) (new : y ∉ first :: nodes) (end_y : next y = none) :
    Chain (Function.update next x (some y)) first (nodes ++ [y]) := by
  obtain ⟨k, hk⟩ := List.mem_iff_getElem?.mp at_x
  have hlast := h.last hk null
  have hxy : y ≠ x := fun heq => new (heq ▸ at_x)
  intro i z hz
  rw [← List.cons_append, List.getElem?_append] at hz
  rw [List.getElem?_append]
  split at hz
  · rename_i hlt
    by_cases hzx : z = x
    · subst hzx
      have hi : i = nodes.length := (h.index_unique hz hk).trans hlast
      rw [Function.update_self, hi]
      simp
    · rw [Function.update_of_ne hzx, h i z hz, if_pos]
      by_contra hge
      simp only [List.length_cons] at hlt
      have hi : i = k := by omega
      rw [hi, hk] at hz
      exact hzx (Option.some.inj hz).symm
  · rename_i hge
    obtain rfl : z = y := by
      have := List.mem_of_getElem? hz
      simpa using this
    rw [Function.update_of_ne hxy, end_y]
    simp only [List.length_cons] at hge
    rw [if_neg (by omega), eq_comm, List.getElem?_eq_none_iff]
    simp only [List.length_singleton]
    omega

/-- Over a null pointer, a store only adds to what is reached. -/
theorem Reaches.mono {a b : ν} (h : Reaches next a b) (null : next x = none) (v : Option ν) :
    Reaches (Function.update next x v) a b := by
  refine Relation.ReflTransGen.mono (fun c d hcd => ?_) a b h
  have hne : c ≠ x := by
    rintro rfl
    simp [null] at hcd
  rwa [Function.update_of_ne hne]

end Store

end NodeChain
