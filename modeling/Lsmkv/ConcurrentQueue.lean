import Lsmkv.Lib.Interleaving
import Lsmkv.Lib.NodeChain

/-!
# The concurrent queue

`concurrent_queue` (`utils/concurrent_queue.h`) carries the tasks of the executors.  It is a
linked list with two pointers into it: `head_` to a node whose value is gone, and `tail_` to
some node not before it.  `push` links a node behind the last one and swings `tail_`; `pop`
swings `head_` to the next node and moves the value out of it; whoever finds `tail_` behind
swings it on.  A thread works on what it has loaded, and its compare-exchanges succeed only on
what is still so.

Nodes are numbers and never used again, as the hazard pointers are to ensure.  All nodes that
were ever linked form one chain, in the order of their links, from the first node of the queue
(`ConcurrentQueue.Shape`); `head_` and `tail_` only move on along it.  What a thread has loaded
stays true because the chain only grows (`ConcurrentQueue.Grows`).
-/

namespace Lsmkv

namespace ConcurrentQueue

open Interleaving NodeChain

/-- The queue.  `data` is null where a node has no value or it was moved out.  The last four
fields are not part of the queue and say what has happened: the values that nodes were made
with, the nodes in the order of their links, the nodes in the order in which `head_` came to
them, and what `pop` has moved out of nodes. -/
structure Memory (V : Type*) where
  head : ℕ
  tail : ℕ
  next : ℕ → Option ℕ
  data : ℕ → Option V
  nodes : ℕ
  given : ℕ → Option V
  linked : List ℕ
  popped : List ℕ
  returned : List (ℕ × Option V)

variable {V : Type*}

namespace Memory

variable (m : Memory V)

/-- A node is made for a value. -/
def make (v : V) : Memory V :=
  { m with nodes := m.nodes + 1
           data := Function.update m.data m.nodes (some v)
           given := Function.update m.given m.nodes (some v) }

/-- A node is linked behind another one. -/
def link (node tail : ℕ) : Memory V :=
  { m with next := Function.update m.next tail (some node), linked := m.linked ++ [node] }

/-- `head_` is swung to a node. -/
def swing (next : ℕ) : Memory V := { m with head := next, popped := m.popped ++ [next] }

/-- The value of a node is moved out and returned. -/
def moveOut (node : ℕ) : Memory V :=
  { m with data := Function.update m.data node none
           returned := (node, m.data node) :: m.returned }

end Memory

/-- The call that a thread is in; a `push` has made its node. -/
inductive Op
  | push (node : ℕ)
  | pop

/-- The pointer that a call works on. -/
def Op.anchor (m : Memory V) : Op → ℕ
  | .push _ => m.tail
  | .pop => m.head

/-- The next step of a thread. -/
inductive Place
  | idle
  /-- `get_node_and_next`: two loads of `head_` or `tail_`, and two loads of `next`. -/
  | getNode (op : Op)
  | getNodeAgain (op : Op) (tempNode : ℕ)
  | getNext (op : Op) (node : ℕ)
  | getNextAgain (op : Op) (node : ℕ) (tempNext : Option ℕ)
  /-- The test whether `head_` or `tail_` is still the node. -/
  | check (op : Op) (node : ℕ) (next : Option ℕ)
  /-- `push`: the compare-exchange on `next`, the one that swings `tail_` for another `push`,
  and its own. -/
  | pushLink (node tail : ℕ)
  | pushHelp (node tail next : ℕ)
  | pushSwing (node tail : ℕ)
  /-- `pop`: the test against `tail_`, the compare-exchange that swings it, the test of `next`,
  the compare-exchange on `head_`, and the move of the value. -/
  | popTail (head : ℕ) (next : Option ℕ)
  | popHelp (head next : ℕ)
  | popNext (head : ℕ) (next : Option ℕ)
  | popSwing (head : ℕ) (next : Option ℕ)
  | popMove (next : ℕ)

/-- `push` behind its test of `tail_`. -/
def pushOn (node tail : ℕ) : Option ℕ → Place
  | none => .pushLink node tail
  | some next => .pushHelp node tail next

/-- `pop` of a queue whose `tail_` is its `head_`: it is empty, or `tail_` is behind. -/
def popAtTail (head : ℕ) : Option ℕ → Place
  | none => .idle
  | some next => .popHelp head next

/-- **One step of a thread.**  A weak compare-exchange may also fail for no reason. -/
inductive Next {ι : Type*} (t : ι) : Memory V → Place → Memory V → Place → Prop
  | push {m : Memory V} (v : V) : Next t m .idle (m.make v) (.getNode (.push m.nodes))
  | pop {m : Memory V} : Next t m .idle m (.getNode .pop)
  | getNode {m : Memory V} {op : Op} : Next t m (.getNode op) m (.getNodeAgain op (op.anchor m))
  | getNodeAgain {m : Memory V} {op : Op} {tempNode : ℕ} :
      Next t m (.getNodeAgain op tempNode) m
        (if op.anchor m = tempNode then .getNext op tempNode else .getNode op)
  | getNext {m : Memory V} {op : Op} {node : ℕ} :
      Next t m (.getNext op node) m (.getNextAgain op node (m.next node))
  | getNextAgain {m : Memory V} {op : Op} {node : ℕ} {tempNext : Option ℕ} :
      Next t m (.getNextAgain op node tempNext) m
        (if m.next node = tempNext then .check op node tempNext else .getNode op)
  | checkPush {m : Memory V} {node tail : ℕ} {next : Option ℕ} :
      Next t m (.check (.push node) tail next) m
        (if m.tail = tail then pushOn node tail next else .getNode (.push node))
  | checkPop {m : Memory V} {head : ℕ} {next : Option ℕ} :
      Next t m (.check .pop head next) m
        (if m.head = head then .popTail head next else .getNode .pop)
  | pushLink {m : Memory V} {node tail : ℕ} (null : m.next tail = none) :
      Next t m (.pushLink node tail) (m.link node tail) (.pushSwing node tail)
  | pushLinkFails {m : Memory V} {node tail : ℕ} (linked : m.next tail ≠ none) :
      Next t m (.pushLink node tail) m (.getNode (.push node))
  | pushHelp {m : Memory V} {node tail next : ℕ} (equal : m.tail = tail) :
      Next t m (.pushHelp node tail next) { m with tail := next } (.getNode (.push node))
  | pushHelpFails {m : Memory V} {node tail next : ℕ} :
      Next t m (.pushHelp node tail next) m (.getNode (.push node))
  | pushSwing {m : Memory V} {node tail : ℕ} (equal : m.tail = tail) :
      Next t m (.pushSwing node tail) { m with tail := node } .idle
  | pushSwingFails {m : Memory V} {node tail : ℕ} : Next t m (.pushSwing node tail) m .idle
  | popTail {m : Memory V} {head : ℕ} {next : Option ℕ} :
      Next t m (.popTail head next) m
        (if m.tail = head then popAtTail head next else .popNext head next)
  | popHelp {m : Memory V} {head next : ℕ} (equal : m.tail = head) :
      Next t m (.popHelp head next) { m with tail := next } (.getNode .pop)
  | popHelpFails {m : Memory V} {head next : ℕ} :
      Next t m (.popHelp head next) m (.getNode .pop)
  | popNext {m : Memory V} {head : ℕ} {next : Option ℕ} :
      Next t m (.popNext head next) m
        (if m.next head = next then .popSwing head next else .getNode .pop)
  /-- The compare-exchange, behind the assertion that `next` is not null. -/
  | popSwing {m : Memory V} {head next : ℕ} (equal : m.head = head) :
      Next t m (.popSwing head (some next)) (m.swing next) (.popMove next)
  | popSwingFails {m : Memory V} {head next : ℕ} (different : m.head ≠ head) :
      Next t m (.popSwing head (some next)) m (.getNode .pop)
  | popMove {m : Memory V} {next : ℕ} : Next t m (.popMove next) (m.moveOut next) .idle

/-- The queue when it is made. -/
def new {ι : Type*} : Config ι (Memory V) Place :=
  ⟨⟨0, 0, fun _ => none, fun _ => none, 1, fun _ => none, [], [], []⟩, fun _ => .idle⟩

/-- The node that a call of `push` has not linked. -/
def Op.own : Op → Option ℕ
  | .push node => some node
  | .pop => none

/-- The node that a thread has not linked. -/
def Place.own : Place → Option ℕ
  | .getNode op | .getNodeAgain op _ | .getNext op _ | .getNextAgain op _ _ | .check op _ _ => op.own
  | .pushLink node _ | .pushHelp node _ _ => some node
  | _ => none

/-- The node that a thread has to move the value out of. -/
def Place.moving : Place → Option ℕ
  | .popMove next => some next
  | _ => none

/-! ## The chain of all nodes -/

section Shape

variable {m m' : Memory V} {x y : ℕ}

/-- **The shape of the queue**: all nodes that were linked form a chain, `head_` is behind
those that were popped, and `tail_` is not before `head_`. -/
structure Shape (m : Memory V) : Prop where
  chain : Chain m.next 0 m.linked
  popped : m.popped <+: m.linked
  head : (0 :: m.linked)[m.popped.length]? = some m.head
  tail : ∃ k, m.popped.length ≤ k ∧ (0 :: m.linked)[k]? = some m.tail
  allocated : ∀ n ∈ 0 :: m.linked, n < m.nodes
  fresh : ∀ n, m.nodes ≤ n → m.next n = none

/-- What a step leaves: nodes stay linked and popped, links stay, and `tail_` moves on. -/
structure Grows (m m' : Memory V) : Prop where
  linked : m.linked <+: m'.linked
  popped : m.popped <+: m'.popped
  next : ∀ x y, m.next x = some y → m'.next x = some y
  tail : ∀ k : ℕ, (0 :: m.linked)[k]? = some m.tail →
    ∃ k', k ≤ k' ∧ (0 :: m'.linked)[k']? = some m'.tail

/-- `tail_` is further on than a node. -/
def Beyond (m : Memory V) (x : ℕ) : Prop :=
  ∃ i j : ℕ, i < j ∧ (0 :: m.linked)[i]? = some x ∧ (0 :: m.linked)[j]? = some m.tail

/-- A position in the chain stays. -/
theorem getElem?_of_isPrefix {l l' : List ℕ} {k : ℕ} (h : l <+: l')
    (at_x : (0 :: l)[k]? = some x) : (0 :: l')[k]? = some x := by
  obtain ⟨r, rfl⟩ := h
  obtain ⟨hk, -⟩ := List.getElem?_eq_some_iff.mp at_x
  rw [← List.cons_append, List.getElem?_append_left hk, at_x]

/-- A step that is not about the nodes of the chain. -/
theorem Grows.of_eq (linked : m'.linked = m.linked) (popped : m'.popped = m.popped)
    (next : m'.next = m.next) (tail : m'.tail = m.tail) : Grows m m' where
  linked := by rw [linked]
  popped := by rw [popped]
  next x y h := by rwa [next]
  tail k hk := ⟨k, le_rfl, by rwa [linked, tail]⟩

theorem Beyond.mono (h : Beyond m x) (grows : Grows m m') : Beyond m' x := by
  obtain ⟨i, j, hij, hi, hj⟩ := h
  obtain ⟨k, hk, hk'⟩ := grows.tail j hj
  exact ⟨i, k, by omega, getElem?_of_isPrefix grows.linked hi, hk'⟩

namespace Shape

theorem new {ι : Type*} : Shape (ConcurrentQueue.new : Config ι (Memory V) Place).shared where
  chain := .nil rfl
  popped := List.prefix_rfl
  head := rfl
  tail := ⟨0, le_rfl, rfl⟩
  allocated := by simp [ConcurrentQueue.new]
  fresh := by simp [ConcurrentQueue.new]

/-- Nodes that were popped, or are the first one, are on the chain not behind `head_`. -/
theorem index_of_popped (h : Shape m) (passed : x ∈ 0 :: m.popped) :
    ∃ i ≤ m.popped.length, (0 :: m.linked)[i]? = some x := by
  obtain ⟨i, hi⟩ := List.mem_iff_getElem?.mp passed
  obtain ⟨hlt, -⟩ := List.getElem?_eq_some_iff.mp hi
  rw [List.length_cons] at hlt
  exact ⟨i, by omega, getElem?_of_isPrefix h.popped hi⟩

theorem head_mem (h : Shape m) : m.head ∈ 0 :: m.popped := by
  obtain ⟨r, hr⟩ := h.popped
  have hhead := h.head
  rw [← hr, ← List.cons_append, List.getElem?_append_left (by simp)] at hhead
  exact List.mem_of_getElem? hhead

theorem tail_mem (h : Shape m) : m.tail ∈ 0 :: m.linked := by
  obtain ⟨k, -, hk⟩ := h.tail
  exact List.mem_of_getElem? hk

/-- A node not behind `head_` that is not `tail_` is before it. -/
theorem beyond (h : Shape m) (passed : x ∈ 0 :: m.popped) (ne : m.tail ≠ x) : Beyond m x := by
  obtain ⟨i, hi, hx⟩ := h.index_of_popped passed
  obtain ⟨k, hk, htail⟩ := h.tail
  refine ⟨i, k, lt_of_le_of_ne (hi.trans hk) ?_, hx, htail⟩
  rintro rfl
  exact ne (Option.some.inj (htail.symm.trans hx))

/-- A node before `tail_` has a link. -/
theorem next_of_beyond (h : Shape m) (before : Beyond m x) : m.next x ≠ none := by
  obtain ⟨i, j, hij, hi, hj⟩ := before
  obtain ⟨hlt, -⟩ := List.getElem?_eq_some_iff.mp hj
  rw [List.length_cons] at hlt
  exact h.chain.next_ne_none hi (by omega)

/-- A node is made. -/
theorem make (h : Shape m) (v : V) : Shape (m.make v) where
  chain := h.chain
  popped := h.popped
  head := h.head
  tail := h.tail
  allocated n hn := Nat.lt_succ_of_lt (h.allocated n hn)
  fresh n hn := h.fresh n (Nat.le_of_succ_le hn)

/-- **A node is linked.** -/
theorem link (h : Shape m) (on : x ∈ 0 :: m.linked) (null : m.next x = none)
    (out : y ∉ 0 :: m.linked) (end_y : m.next y = none) (made : y < m.nodes) :
    Shape (m.link y x) ∧ Grows m (m.link y x) := by
  have hpre : m.linked <+: (m.link y x).linked := List.prefix_append _ _
  refine ⟨⟨h.chain.append on null out end_y, h.popped.trans hpre, getElem?_of_isPrefix hpre h.head,
    ?_, ?_, ?_⟩, ⟨hpre, List.prefix_rfl, ?_, fun k hk => ⟨k, le_rfl, getElem?_of_isPrefix hpre hk⟩⟩⟩
  · obtain ⟨k, hk, htail⟩ := h.tail
    exact ⟨k, hk, getElem?_of_isPrefix hpre htail⟩
  · intro n hn
    rw [Memory.link, ← List.cons_append, List.mem_append, List.mem_singleton] at hn
    rcases hn with hn | rfl
    · exact h.allocated n hn
    · exact made
  · intro n hn
    have hne : n ≠ x := by
      rintro rfl
      exact absurd (h.allocated n on) (not_lt.mpr hn)
    exact (Function.update_of_ne hne _ _).trans (h.fresh n hn)
  · intro a b hab
    have hne : a ≠ x := by
      rintro rfl
      simp [null] at hab
    exact (Function.update_of_ne hne _ _).trans hab

/-- **`tail_` moves on** to the next node. -/
theorem advance (h : Shape m) (next : m.next m.tail = some y) :
    Shape { m with tail := y } ∧ Grows m { m with tail := y } := by
  obtain ⟨k, hk, htail⟩ := h.tail
  have hsucc := h.chain.succ htail next
  refine ⟨⟨h.chain, h.popped, h.head, ⟨k + 1, hk.trans (Nat.le_succ k), hsucc⟩, h.allocated,
    h.fresh⟩, ⟨List.prefix_rfl, List.prefix_rfl, fun _ _ h => h, fun j hj => ?_⟩⟩
  obtain rfl := h.chain.index_unique hj htail
  exact ⟨j + 1, Nat.le_succ j, hsucc⟩

/-- The next node behind `head_` was not popped. -/
theorem next_notMem (h : Shape m) (next : m.next m.head = some y) : y ∈ m.linked ∧ y ∉ m.popped := by
  have hsucc := h.chain.succ h.head next
  rw [List.getElem?_cons_succ] at hsucc
  refine ⟨List.mem_of_getElem? hsucc, fun hmem => ?_⟩
  obtain ⟨i, hi⟩ := List.mem_iff_getElem?.mp hmem
  obtain ⟨hlt, -⟩ := List.getElem?_eq_some_iff.mp hi
  have hi' : (0 :: m.popped)[i + 1]? = some y := hi
  have := h.chain.index_unique (getElem?_of_isPrefix h.popped hi') (h.chain.succ h.head next)
  omega

/-- **`head_` moves on** to the next node, which is not behind `tail_`. -/
theorem swing (h : Shape m) (next : m.next m.head = some y) (before : Beyond m m.head) :
    Shape (m.swing y) ∧ Grows m (m.swing y) := by
  have hsucc := h.chain.succ h.head next
  have hlen : (m.swing y).popped.length = m.popped.length + 1 := by simp [Memory.swing]
  have hpre : m.popped ++ [y] <+: m.linked := by
    obtain ⟨r, hr⟩ := h.popped
    rw [List.getElem?_cons_succ, ← hr, List.getElem?_append_right le_rfl, Nat.sub_self] at hsucc
    rcases r with - | ⟨z, r⟩
    · simp at hsucc
    · obtain rfl : z = y := by simpa using hsucc
      exact ⟨r, by rw [← hr, List.append_assoc, List.singleton_append]⟩
  refine ⟨⟨h.chain, hpre, by rw [hlen]; exact hsucc, ?_, h.allocated, h.fresh⟩,
    ⟨List.prefix_rfl, List.prefix_append _ _, fun _ _ h => h, fun k hk => ⟨k, le_rfl, hk⟩⟩⟩
  obtain ⟨i, j, hij, hi, hj⟩ := before
  obtain rfl := h.chain.index_unique hi h.head
  exact ⟨j, by rw [hlen]; omega, hj⟩

end Shape

/-! ## What a thread has loaded -/

/-- A node that a call has loaded from its pointer. -/
def Op.On (m : Memory V) (node : ℕ) : Op → Prop
  | .push _ => node ∈ 0 :: m.linked
  | .pop => node ∈ 0 :: m.popped

/-- **What a thread knows** of the nodes it has loaded. -/
def Local (m : Memory V) : Place → Prop
  | .getNext op node | .getNextAgain op node _ => op.On m node
  | .check op node next => op.On m node ∧ ∀ y, next = some y → m.next node = some y
  | .pushLink _ tail => tail ∈ 0 :: m.linked
  | .pushHelp _ tail next => m.next tail = some next
  | .pushSwing node tail => m.next tail = some node
  | .popTail head next => head ∈ 0 :: m.popped ∧ ∀ y, next = some y → m.next head = some y
  | .popHelp head next => m.next head = some next
  | .popNext head _ => Beyond m head
  | .popSwing head next => Beyond m head ∧ ∃ y, next = some y ∧ m.next head = some y
  | _ => True

theorem Op.On.mono {op : Op} (h : op.On m x) (grows : Grows m m') : op.On m' x := by
  cases op with
  | push node =>
      exact (List.cons_subset_cons 0 grows.linked.subset) h
  | pop => exact (List.cons_subset_cons 0 grows.popped.subset) h

/-- What a thread knows stays true. -/
theorem Local.mono {p : Place} (h : Local m p) (grows : Grows m m') : Local m' p := by
  cases p with
  | getNext op node | getNextAgain op node _ => exact Op.On.mono h grows
  | check op node next => exact ⟨h.1.mono grows, fun y hy => grows.next _ _ (h.2 y hy)⟩
  | pushLink node tail => exact (List.cons_subset_cons 0 grows.linked.subset) h
  | pushHelp _ _ _ | pushSwing _ _ | popHelp _ _ => exact grows.next _ _ h
  | popTail head next =>
      exact ⟨(List.cons_subset_cons 0 grows.popped.subset) h.1, fun y hy => grows.next _ _ (h.2 y hy)⟩
  | popNext head next => exact Beyond.mono h grows
  | popSwing head next =>
      obtain ⟨y, hy, hnext⟩ := h.2
      exact ⟨h.1.mono grows, y, hy, grows.next _ _ hnext⟩
  | _ => trivial

end Shape

/-! ## What a step can do -/

section Steps

variable {ι : Type*} {t : ι} {m m' : Memory V} {p p' : Place}

/-- A step makes a node, links it, swings `tail_` on to the next node, swings `head_`, moves a
value out, or leaves the queue alone. -/
theorem Next.cases (h : Next t m p m' p') :
    (∃ v, m' = m.make v ∧ p = .idle ∧ p' = .getNode (.push m.nodes)) ∨
    (∃ node tail, m' = m.link node tail ∧ m.next tail = none ∧ p = .pushLink node tail ∧
      p' = .pushSwing node tail) ∨
    (∃ y, m' = { m with tail := y } ∧ (Local m p → m.next m.tail = some y) ∧ p'.own = p.own ∧
      p'.moving = p.moving) ∨
    (∃ y, m' = m.swing y ∧ p = .popSwing m.head (some y) ∧ p' = .popMove y) ∨
    (∃ y, m' = m.moveOut y ∧ p = .popMove y ∧ p' = .idle) ∨
    (m' = m ∧ p'.own = p.own ∧ p'.moving = p.moving) := by
  cases h with
  | push v => exact .inl ⟨v, rfl, rfl, rfl⟩
  | pushLink null => exact .inr (.inl ⟨_, _, rfl, null, rfl, rfl⟩)
  | pushHelp equal | pushSwing equal | popHelp equal =>
      subst equal
      exact .inr (.inr (.inl ⟨_, rfl, id, rfl, rfl⟩))
  | popSwing equal =>
      subst equal
      exact .inr (.inr (.inr (.inl ⟨_, rfl, rfl, rfl⟩)))
  | popMove => exact .inr (.inr (.inr (.inr (.inl ⟨_, rfl, rfl, rfl⟩))))
  | getNodeAgain | getNextAgain | checkPop | popNext =>
      refine .inr (.inr (.inr (.inr (.inr ⟨rfl, ?_, ?_⟩))))
      · split <;> rfl
      · split <;> rfl
  | @checkPush _ _ next | @popTail _ next =>
      refine .inr (.inr (.inr (.inr (.inr ⟨rfl, ?_, ?_⟩))))
      · split
        · cases next <;> rfl
        · rfl
      · split
        · cases next <;> rfl
        · rfl
  | _ => exact .inr (.inr (.inr (.inr (.inr ⟨rfl, rfl, rfl⟩))))

/-- **What the thread that moves knows.** -/
theorem Local.step (h : Local m p) (shape : Shape m) (moved : Next t m p m' p') : Local m' p' := by
  cases moved with
  | @getNodeAgain op tempNode =>
      split
      · rename_i heq
        subst heq
        cases op with
        | push node => exact shape.tail_mem
        | pop => exact shape.head_mem
      · trivial
  | getNext => exact h
  | getNextAgain =>
      split
      · rename_i heq
        exact ⟨h, fun y hy => heq.trans hy⟩
      · trivial
  | @checkPush node tail next =>
      split
      · cases next with
        | none => exact h.1
        | some y => exact h.2 y rfl
      · trivial
  | checkPop =>
      split
      · exact h
      · trivial
  | pushLink null => exact Function.update_self _ _ _
  | @popTail head next =>
      split
      · cases next with
        | none => trivial
        | some y => exact h.2 y rfl
      · exact shape.beyond h.1 ‹_›
  | @popNext head next =>
      split
      · rename_i heq
        obtain ⟨y, hy⟩ := Option.ne_none_iff_exists'.mp (shape.next_of_beyond h)
        exact ⟨h, y, heq.symm.trans hy, hy⟩
      · trivial
  | _ => trivial

end Steps

/-! ## The values -/

/-- A node holds the value that it was made with. -/
def Filled (m : Memory V) (n : ℕ) : Prop := m.data n = m.given n ∧ m.given n ≠ none

/-- **What holds of the queue and its threads**: new nodes belong to one thread each, a node that
was not popped holds its value, and one that was popped holds it until the one thread that
popped it has moved it out. -/
structure Whole {ι : Type*} (c : Config ι (Memory V) Place) : Prop where
  shape : Shape c.shared
  own : ∀ i n, (c.pc i).own = some n →
    n ∉ 0 :: c.shared.linked ∧ c.shared.next n = none ∧ n < c.shared.nodes ∧ Filled c.shared n
  distinct : ∀ i j n, (c.pc i).own = some n → (c.pc j).own = some n → i = j
  waiting : ∀ n ∈ c.shared.linked, n ∉ c.shared.popped → Filled c.shared n
  moving : ∀ i n, (c.pc i).moving = some n →
    n ∈ c.shared.popped ∧ Filled c.shared n ∧ n ∉ c.shared.returned.map Prod.fst
  alone : ∀ i j n, (c.pc i).moving = some n → (c.pc j).moving = some n → i = j
  nodup : (c.shared.returned.map Prod.fst).Nodup
  returned : ∀ e ∈ c.shared.returned,
    e.1 ∈ c.shared.popped ∧ e.2 = c.shared.given e.1 ∧ e.2 ≠ none

namespace Whole

variable {ι : Type*} [DecidableEq ι] {c : Config ι (Memory V) Place} {i : ι} {p : Place} {y : ℕ}

omit [DecidableEq ι] in
theorem new : Whole (ConcurrentQueue.new : Config ι (Memory V) Place) where
  shape := .new
  own := by simp [ConcurrentQueue.new, Place.own]
  distinct := by simp [ConcurrentQueue.new, Place.own]
  waiting := by simp [ConcurrentQueue.new]
  moving := by simp [ConcurrentQueue.new, Place.moving]
  alone := by simp [ConcurrentQueue.new, Place.moving]
  nodup := by simp [ConcurrentQueue.new]
  returned := by simp [ConcurrentQueue.new]

/-- A step that changes `tail_` at most. -/
theorem tail (h : Whole c) {tail : ℕ} (shape : Shape { c.shared with tail := tail })
    (own : p.own = (c.pc i).own) (moving : p.moving = (c.pc i).moving) :
    Whole (c.move i { c.shared with tail := tail } p) := by
  have hown := c.forall_move_pc (s := { c.shared with tail := tail }) own
  have hmoving := c.forall_move_pc (s := { c.shared with tail := tail }) moving
  constructor
  · exact shape
  · exact fun j n hj => h.own j n ((hown j).symm.trans hj)
  · simpa only [hown] using h.distinct
  · exact h.waiting
  · exact fun j n hj => h.moving j n ((hmoving j).symm.trans hj)
  · simpa only [hmoving] using h.alone
  · exact h.nodup
  · exact h.returned

/-- A node is made. -/
theorem make (h : Whole c) (here : c.pc i = .idle) (v : V) :
    Whole (c.move i (c.shared.make v) (.getNode (.push c.shared.nodes))) := by
  have hmoving := c.forall_move_pc (s := c.shared.make v)
    (show (Place.getNode (.push c.shared.nodes)).moving = (c.pc i).moving by rw [here]; rfl)
  -- The other nodes are as they were.
  have hfilled : ∀ n, n < c.shared.nodes → Filled c.shared n → Filled (c.shared.make v) n := by
    intro n hlt hn
    have hne : n ≠ c.shared.nodes := hlt.ne
    simpa [Filled, Memory.make, Function.update_of_ne hne] using hn
  have hlinked : ∀ n ∈ c.shared.linked, n < c.shared.nodes := fun n hn =>
    h.shape.allocated n (List.mem_cons_of_mem _ hn)
  constructor
  · exact h.shape.make v
  · intro j n hj
    rcases Config.pc_of_move (Q := (Place.own · = some n)) hj with ⟨-, hn⟩ | ⟨-, hn⟩
    · obtain rfl : c.shared.nodes = n := Option.some.inj hn
      refine ⟨fun hmem => lt_irrefl _ (h.shape.allocated _ hmem), h.shape.fresh _ le_rfl,
        Nat.lt_succ_self _, ?_⟩
      simp [Filled, Memory.make]
    · obtain ⟨hout, hnext, hlt, hn⟩ := h.own j n hn
      exact ⟨hout, hnext, Nat.lt_succ_of_lt hlt, hfilled n hlt hn⟩
  · intro j k n hj hk
    have hother : ∀ j, (c.pc j).own = some n → n ≠ c.shared.nodes := fun j hj =>
      (h.own j n hj).2.2.1.ne
    rcases Config.pc_of_move (Q := (Place.own · = some n)) hj with ⟨hji, hn⟩ | ⟨-, hj⟩
    · rcases Config.pc_of_move (Q := (Place.own · = some n)) hk with ⟨hki, -⟩ | ⟨-, hk⟩
      · exact hji.trans hki.symm
      · exact absurd (Option.some.inj hn).symm (hother k hk)
    · rcases Config.pc_of_move (Q := (Place.own · = some n)) hk with ⟨-, hn⟩ | ⟨-, hk⟩
      · exact absurd (Option.some.inj hn).symm (hother j hj)
      · exact h.distinct j k n hj hk
  · exact fun n hn hout => hfilled n (hlinked n hn) (h.waiting n hn hout)
  · intro j n hj
    rw [hmoving] at hj
    obtain ⟨hmem, hn, hout⟩ := h.moving j n hj
    exact ⟨hmem, hfilled n (hlinked n (h.shape.popped.subset hmem)) hn, hout⟩
  · simpa only [hmoving] using h.alone
  · exact h.nodup
  · intro e he
    obtain ⟨hmem, hval, hne⟩ := h.returned e he
    refine ⟨hmem, ?_, hne⟩
    have hlt := hlinked e.1 (h.shape.popped.subset hmem)
    rw [hval]
    exact (Function.update_of_ne hlt.ne _ _).symm

/-- **A node is linked.** -/
theorem link (h : Whole c) {node tail : ℕ} (here : c.pc i = .pushLink node tail)
    (on : tail ∈ 0 :: c.shared.linked) (null : c.shared.next tail = none) :
    Whole (c.move i (c.shared.link node tail) (.pushSwing node tail)) := by
  have hmoving := c.forall_move_pc (s := c.shared.link node tail)
    (show (Place.pushSwing node tail).moving = (c.pc i).moving by rw [here]; rfl)
  obtain ⟨hout, hend, hlt, hfilled⟩ := h.own i node (by rw [here]; rfl)
  constructor
  · exact (h.shape.link on null hout hend hlt).1
  · intro j n hj
    rcases Config.pc_of_move (Q := (Place.own · = some n)) hj with ⟨-, hj'⟩ | ⟨hji, hj'⟩
    · simp [Place.own] at hj'
    · obtain ⟨hout', hend', hlt', hfilled'⟩ := h.own j n hj'
      refine ⟨?_, ?_, hlt', hfilled'⟩
      · rw [Config.move_shared, Memory.link, ← List.cons_append, List.mem_append,
          List.mem_singleton, not_or]
        refine ⟨hout', ?_⟩
        rintro rfl
        exact hji (h.distinct j i n hj' (by rw [here]; rfl))
      · have hne : n ≠ tail := fun heq => hout' (heq ▸ on)
        exact (Function.update_of_ne hne _ _).trans hend'
  · intro j k n hj hk
    rcases Config.pc_of_move (Q := (Place.own · = some n)) hj with ⟨-, hj⟩ | ⟨-, hj⟩
    · simp [Place.own] at hj
    · rcases Config.pc_of_move (Q := (Place.own · = some n)) hk with ⟨-, hk⟩ | ⟨-, hk⟩
      · simp [Place.own] at hk
      · exact h.distinct j k n hj hk
  · intro n hn hpop
    rcases List.mem_append.mp hn with hn | hn
    · exact h.waiting n hn hpop
    · obtain rfl := List.mem_singleton.mp hn
      exact hfilled
  · exact fun j n hj => h.moving j n ((hmoving j).symm.trans hj)
  · simpa only [hmoving] using h.alone
  · exact h.nodup
  · exact h.returned

/-- **`head_` is swung**, and the thread has a value to move out. -/
theorem swing (h : Whole c) (here : c.pc i = .popSwing c.shared.head (some y))
    (next : c.shared.next c.shared.head = some y) (before : Beyond c.shared c.shared.head) :
    Whole (c.move i (c.shared.swing y) (.popMove y)) := by
  have hown := c.forall_move_pc (s := c.shared.swing y)
    (show (Place.popMove y).own = (c.pc i).own by rw [here]; rfl)
  obtain ⟨hlinked, hout⟩ := h.shape.next_notMem next
  have hmem : ∀ n ∈ c.shared.popped, n ∈ (c.shared.swing y).popped := fun n hn =>
    List.mem_append_left _ hn
  constructor
  · exact (h.shape.swing next before).1
  · exact fun j n hj => h.own j n ((hown j).symm.trans hj)
  · simpa only [hown] using h.distinct
  · exact fun n hn hpop => h.waiting n hn fun hold => hpop (hmem n hold)
  · intro j n hj
    rcases Config.pc_of_move (Q := (Place.moving · = some n)) hj with ⟨-, hn⟩ | ⟨-, hn⟩
    · obtain rfl : y = n := Option.some.inj hn
      refine ⟨by simp [Memory.swing], h.waiting y hlinked hout, fun hret => ?_⟩
      obtain ⟨e, he, rfl⟩ := List.mem_map.mp hret
      exact hout (h.returned e he).1
    · obtain ⟨hpop, hfilled, hret⟩ := h.moving j n hn
      exact ⟨hmem n hpop, hfilled, hret⟩
  · intro j k n hj hk
    rcases Config.pc_of_move (Q := (Place.moving · = some n)) hj with ⟨hji, hn⟩ | ⟨-, hj⟩
    · obtain rfl : y = n := Option.some.inj hn
      rcases Config.pc_of_move (Q := (Place.moving · = some y)) hk with ⟨hki, -⟩ | ⟨-, hk⟩
      · exact hji.trans hki.symm
      · exact absurd (h.moving k y hk).1 hout
    · rcases Config.pc_of_move (Q := (Place.moving · = some n)) hk with ⟨-, hn⟩ | ⟨-, hk⟩
      · obtain rfl : y = n := Option.some.inj hn
        exact absurd (h.moving j y hj).1 hout
      · exact h.alone j k n hj hk
  · exact h.nodup
  · intro e he
    obtain ⟨hpop, hval⟩ := h.returned e he
    exact ⟨hmem e.1 hpop, hval⟩

/-- **A value is moved out.** -/
theorem moveOut (h : Whole c) (here : c.pc i = .popMove y) :
    Whole (c.move i (c.shared.moveOut y) .idle) := by
  have hown := c.forall_move_pc (s := c.shared.moveOut y)
    (show Place.idle.own = (c.pc i).own by rw [here]; rfl)
  obtain ⟨hpop, hfilled, hret⟩ := h.moving i y (by rw [here]; rfl)
  have hother : ∀ n, n ≠ y → Filled c.shared n → Filled (c.shared.moveOut y) n := by
    intro n hne hn
    simpa [Filled, Memory.moveOut, Function.update_of_ne hne] using hn
  have hlinked : y ∈ 0 :: c.shared.linked :=
    List.mem_cons_of_mem _ (h.shape.popped.subset hpop)
  have hmoving : ∀ j n, ((c.move i (c.shared.moveOut y) .idle).pc j).moving = some n →
      (c.pc j).moving = some n ∧ n ≠ y := by
    intro j n hj
    rcases Config.pc_of_move (Q := (Place.moving · = some n)) hj with ⟨-, hj'⟩ | ⟨hji, hj'⟩
    · simp [Place.moving] at hj'
    · refine ⟨hj', ?_⟩
      rintro rfl
      exact hji (h.alone j i n hj' (by rw [here]; rfl))
  constructor
  · exact ⟨h.shape.chain, h.shape.popped, h.shape.head, h.shape.tail, h.shape.allocated,
      h.shape.fresh⟩
  · intro j n hj
    rw [hown] at hj
    obtain ⟨hout, hnext, hlt, hn⟩ := h.own j n hj
    exact ⟨hout, hnext, hlt, hother n (fun heq => hout (heq ▸ hlinked)) hn⟩
  · simpa only [hown] using h.distinct
  · intro n hn hout
    exact hother n (fun heq => hout (heq ▸ hpop)) (h.waiting n hn hout)
  · intro j n hj
    obtain ⟨hj, hne⟩ := hmoving j n hj
    obtain ⟨hmem, hn, hnot⟩ := h.moving j n hj
    refine ⟨hmem, hother n hne hn, ?_⟩
    simpa [Memory.moveOut, hne] using hnot
  · exact fun j k n hj hk => h.alone j k n (hmoving j n hj).1 (hmoving k n hk).1
  · exact List.nodup_cons.mpr ⟨hret, h.nodup⟩
  · intro e he
    rcases List.mem_cons.mp he with rfl | he
    · exact ⟨hpop, hfilled.1, hfilled.1 ▸ hfilled.2⟩
    · exact h.returned e he

/-- **The queue behind a step.** -/
theorem move (h : Whole c) {m : Memory V} (knows : Local c.shared (c.pc i))
    (moved : Next i c.shared (c.pc i) m p) : Whole (c.move i m p) ∧ Grows c.shared m := by
  rcases moved.cases with ⟨v, rfl, hp, rfl⟩ | ⟨node, tail, rfl, hnull, hp, rfl⟩ |
    ⟨y, rfl, hnext, hown, hmoving⟩ | ⟨y, rfl, hp, rfl⟩ | ⟨y, rfl, hp, rfl⟩ | ⟨rfl, hown, hmoving⟩
  · exact ⟨h.make hp v, .of_eq rfl rfl rfl rfl⟩
  · rw [hp] at knows
    obtain ⟨hout, hend, hlt, -⟩ := h.own i node (by rw [hp]; rfl)
    exact ⟨h.link hp knows hnull, (h.shape.link knows hnull hout hend hlt).2⟩
  · obtain ⟨hshape, hgrows⟩ := h.shape.advance (hnext knows)
    exact ⟨h.tail hshape hown hmoving, hgrows⟩
  · rw [hp] at knows
    obtain ⟨hbefore, y', hy', hnext⟩ := knows
    obtain rfl := Option.some.inj hy'
    exact ⟨h.swing hp hnext hbefore, (h.shape.swing hnext hbefore).2⟩
  · exact ⟨h.moveOut hp, .of_eq rfl rfl rfl rfl⟩
  · exact ⟨h.tail h.shape hown hmoving, .of_eq rfl rfl rfl rfl⟩

end Whole

section Runs

variable {ι : Type*} [DecidableEq ι] {c : Config ι (Memory V) Place}

/-- **The invariant of the queue**, in every run. -/
theorem invariant_of_reachable (h : Reachable Next (fun _ _ _ => True) new c) :
    Whole c ∧ ∀ i, Local c.shared (c.pc i) := by
  refine h.outline .new (fun i => trivial)
    (fun c i m p hwhole hlocal hmoved _ => ⟨(hwhole.move (hlocal i) hmoved).1, ?_⟩)
    (fun c i m p j hwhole hlocal hmoved _ _ => ?_)
  · exact (hlocal i).step hwhole.shape hmoved
  · exact (hlocal j).mono (hwhole.move (hlocal i) hmoved).2

/-- **The queue is one**, in every state of every run of any number of threads: `tail_` is
reached from `head_`; the nodes linked behind `head_` are those that were linked and not
popped, and hold the values they were made with; no node is linked twice, and nodes are popped
in the order of their links; what `pop` returns is the value of the node it popped, and comes
out of no node twice; and the assertion of `pop` holds. -/
theorem fifo (reached : Reachable Next (fun _ _ _ => True) new c) :
    Reaches c.shared.next c.shared.head c.shared.tail ∧
    (∃ rest, Chain c.shared.next c.shared.head rest ∧ c.shared.linked = c.shared.popped ++ rest ∧
      ∀ n ∈ rest, Filled c.shared n) ∧
    c.shared.linked.Nodup ∧ c.shared.popped <+: c.shared.linked ∧
    (c.shared.returned.map Prod.fst).Nodup ∧
    (∀ e ∈ c.shared.returned,
      e.1 ∈ c.shared.popped ∧ e.2 = c.shared.given e.1 ∧ e.2 ≠ none) ∧
    ∀ i head next, c.pc i = .popSwing head next → next ≠ none := by
  obtain ⟨hwhole, hlocal⟩ := invariant_of_reachable reached
  have hnodup := (List.nodup_cons.mp hwhole.shape.chain.nodup).2
  refine ⟨?_, ?_, hnodup, hwhole.shape.popped, hwhole.nodup, hwhole.returned, ?_⟩
  · obtain ⟨k, hk, htail⟩ := hwhole.shape.tail
    exact hwhole.shape.chain.reaches hk hwhole.shape.head htail
  · obtain ⟨rest, hrest⟩ := hwhole.shape.popped
    have hdrop : c.shared.linked.drop c.shared.popped.length = rest := by
      rw [← hrest, List.drop_left]
    refine ⟨rest, hdrop ▸ hwhole.shape.chain.drop hwhole.shape.head, hrest.symm, fun n hn => ?_⟩
    refine hwhole.waiting n (hrest ▸ List.mem_append_right _ hn) fun hpop => ?_
    rw [← hrest] at hnodup
    exact (List.nodup_append.mp hnodup).2.2 n hpop n hn rfl
  · intro i head next hhere
    have hi := hlocal i
    rw [hhere] at hi
    obtain ⟨-, y, rfl, -⟩ := hi
    simp

end Runs

/-- One thread pushes a value, and another one pops it. -/
theorem fifo_push_pop :
    ∃ c : Config (Fin 2) (Memory ℕ) Place, Reachable Next (fun _ _ _ => True) new c ∧
      c.shared.linked = [1] ∧ c.shared.popped = [1] ∧ c.shared.returned = [(1, some 5)] ∧
      Reaches c.shared.next c.shared.head c.shared.tail := by
  have h₀ : Reachable Next (fun _ _ _ => True) (new : Config (Fin 2) (Memory ℕ) Place) new := .start
  have h₁ := h₀.move 0 (.push 5) trivial
  have h₂ := h₁.move 0 .getNode trivial
  have h₃ := h₂.move 0 .getNodeAgain trivial
  have h₄ := h₃.move 0 .getNext trivial
  have h₅ := h₄.move 0 .getNextAgain trivial
  have h₆ := h₅.move 0 .checkPush trivial
  have h₇ := h₆.move 0 (.pushLink rfl) trivial
  have h₈ := h₇.move 0 (.pushSwing rfl) trivial
  have h₉ := h₈.move 1 .pop trivial
  have h₁₀ := h₉.move 1 .getNode trivial
  have h₁₁ := h₁₀.move 1 .getNodeAgain trivial
  have h₁₂ := h₁₁.move 1 .getNext trivial
  have h₁₃ := h₁₂.move 1 .getNextAgain trivial
  have h₁₄ := h₁₃.move 1 .checkPop trivial
  have h₁₅ := h₁₄.move 1 .popTail trivial
  have h₁₆ := h₁₅.move 1 .popNext trivial
  have h₁₇ := h₁₆.move 1 (.popSwing rfl) trivial
  have h₁₈ := h₁₇.move 1 .popMove trivial
  exact ⟨_, h₁₈, rfl, rfl, rfl, (fifo h₁₈).1⟩

end ConcurrentQueue

end Lsmkv
