import Lsmkv.Lib.NodeChain

/-!
# Linked lists

A pointer that may be null leads through a list of nodes to another pointer, which is null at the
end of a list (`Linked`).  Such a path is not changed by stores to other nodes (`Linked.congr`);
paths are glued where one ends and the other one starts (`Linked.append`), and a store to the
last node leads the path elsewhere (`Linked.update_last`).
-/

namespace NodeChain

variable {ν : Type*}

/-- From `first` the pointers run through the nodes to `last`. -/
def Linked (next : ν → Option ν) : Option ν → List ν → Option ν → Prop
  | first, [], last => first = last
  | first, x :: nodes, last => first = some x ∧ Linked next (next x) nodes last

variable {next next' : ν → Option ν} {first middle last : Option ν} {nodes nodes' : List ν} {x : ν}

@[simp]
theorem linked_nil : Linked next first [] last ↔ first = last := Iff.rfl

@[simp]
theorem linked_cons :
    Linked next first (x :: nodes) last ↔ first = some x ∧ Linked next (next x) nodes last := Iff.rfl

/-- A list from a null pointer is empty. -/
theorem Linked.eq_nil (h : Linked next none nodes last) : nodes = [] := by
  cases nodes with
  | nil => rfl
  | cons x nodes => exact absurd h.1.symm (Option.some_ne_none x)

/-- The first node of a list whose end is null. -/
theorem Linked.of_some (h : Linked next (some x) nodes none) :
    ∃ rest, nodes = x :: rest ∧ Linked next (next x) rest none := by
  cases nodes with
  | nil => exact absurd h (Option.some_ne_none x)
  | cons y nodes =>
      obtain rfl := Option.some.inj h.1
      exact ⟨nodes, rfl, h.2⟩

/-- Stores to other nodes. -/
theorem Linked.congr (h : Linked next first nodes last) (same : ∀ x ∈ nodes, next' x = next x) :
    Linked next' first nodes last := by
  induction nodes generalizing first with
  | nil => exact h
  | cons x nodes ih =>
      refine ⟨h.1, ?_⟩
      rw [same x List.mem_cons_self]
      exact ih h.2 fun y hy => same y (List.mem_cons_of_mem x hy)

theorem Linked.append (h : Linked next first nodes middle) (h' : Linked next middle nodes' last) :
    Linked next first (nodes ++ nodes') last := by
  induction nodes generalizing first with
  | nil =>
      obtain rfl : first = middle := h
      exact h'
  | cons x nodes ih => exact ⟨h.1, ih h.2⟩

/-- **A store to the last node** leads the list elsewhere. -/
theorem Linked.update_last [DecidableEq ν] (h : Linked next first (nodes ++ [x]) middle)
    (nodup : (nodes ++ [x]).Nodup) (last : Option ν) :
    Linked (Function.update next x last) first (nodes ++ [x]) last := by
  induction nodes generalizing first with
  | nil => exact ⟨h.1, Function.update_self _ _ _⟩
  | cons y nodes ih =>
      obtain ⟨hout, hnodup⟩ := List.nodup_cons.mp nodup
      have hne : y ≠ x := by
        rintro rfl
        exact hout (by simp)
      refine ⟨h.1, ?_⟩
      rw [Function.update_of_ne hne]
      exact ih h.2 hnodup

/-- The names of nodes may be changed. -/
theorem Linked.map {μ : Type*} {f : ν → μ} {next' : μ → Option μ}
    (h : Linked next first nodes last) (same : ∀ x ∈ nodes, next' (f x) = (next x).map f) :
    Linked next' (first.map f) (nodes.map f) (last.map f) := by
  induction nodes generalizing first with
  | nil => exact congrArg (Option.map f) h
  | cons x nodes ih =>
      refine ⟨congrArg (Option.map f) h.1, ?_⟩
      rw [same x List.mem_cons_self]
      exact ih h.2 fun y hy => same y (List.mem_cons_of_mem x hy)

/-- A chain is a list. -/
theorem Chain.linked {x : ν} (h : Chain next x nodes) :
    Linked next (some x) (x :: nodes) none := by
  induction nodes generalizing x with
  | nil => exact ⟨rfl, h 0 x rfl⟩
  | cons y nodes ih =>
      have hnext : next x = some y := h 0 x rfl
      exact ⟨rfl, hnext ▸ ih (h.drop (i := 1) rfl)⟩

end NodeChain
