import Lsmkv.ConcurrentQueue
import Lsmkv.Lib.HazardPointers
import Lsmkv.Lib.Linked
import Lsmkv.Lib.Simulation

/-!
# The memory of the concurrent queue

`Lsmkv.ConcurrentQueue` gives every node of the queue a number of its own.  The code has
addresses, and the node that `pop` has passed is retired, freed, and its address may be the one of
the next node that `push` makes.  What keeps a thread from taking the one for the other are two
hazard pointers: `get_node_and_next` stores in them the nodes that it has loaded, and loads again.

Here the steps are those of the code, with addresses, with the stores to the hazard pointers and
with `retire`; what is retired and not guarded may be freed at any time, and nothing else is, as by the
reclaimer when it finds all holders (`Reclaimer.refines_hazards`).  Every run is simulated by a run of the queue whose nodes are
numbered (`QueueMemory.follows_queue`): a node that a thread works with is allocated and is
still the node that the thread has loaded.

A compare-exchange compares addresses.  The second loads of `get_node_and_next` may well find an
address that was freed and used again in between, but only before it is protected, and then the
thread goes on with the node that is there now: as if it had loaded it only then.
-/

namespace Lsmkv

namespace QueueMemory

open Interleaving HazardPointers NodeChain

/-- A node.  The first node of a queue has no data. -/
structure Cell (V : Type*) where
  next : Option ℕ
  data : Option V

/-- The queue and its nodes.  A thread has two holders; `returned` is what `pop` has returned. -/
structure Memory (ι V : Type*) where
  head : ℕ
  tail : ℕ
  heap : ℕ → Option (Cell V)
  hazards : Hazards (ι × Fin 2) ℕ
  returned : List (Option V)

/-- The call that a thread is in; a `push` has made its node. -/
inductive Op
  | push (node : ℕ)
  | pop

/-- The next step of a thread. -/
inductive Place
  | idle
  /-- `get_node_and_next`: the load of `head_` or `tail_`, the store to the hazard pointer, the
  second load, and the same for `next`. -/
  | getNode (op : Op)
  | markNode (op : Op) (tempNode : ℕ)
  | getNodeAgain (op : Op) (tempNode : ℕ)
  | getNext (op : Op) (node : ℕ)
  | markNext (op : Op) (node : ℕ) (tempNext : Option ℕ)
  | getNextAgain (op : Op) (node : ℕ) (tempNext : Option ℕ)
  | check (op : Op) (node : ℕ) (next : Option ℕ)
  | pushLink (node tail : ℕ)
  | pushHelp (node tail next : ℕ)
  | pushSwing (node tail : ℕ)
  | popTail (head : ℕ) (next : Option ℕ)
  | popHelp (head next : ℕ)
  | popNext (head : ℕ) (next : Option ℕ)
  | popSwing (head : ℕ) (next : Option ℕ)
  | popMove (next head : ℕ)
  | retire (head : ℕ)
  /-- The destructors of the hazard pointers. -/
  | resetNext
  | resetNode

variable {ι V : Type*}

namespace Memory

variable (m : Memory ι V)

/-- The pointer that a call works on. -/
def anchor : Op → ℕ
  | .push _ => m.tail
  | .pop => m.head

/-- A node is made for a value. -/
def make (x : ℕ) (v : V) : Memory ι V :=
  { m with heap := Function.update m.heap x (some ⟨none, some v⟩) }

/-- The next pointer of a node is set. -/
def link (x : ℕ) (cell : Cell V) (node : ℕ) : Memory ι V :=
  { m with heap := Function.update m.heap x (some { cell with next := some node }) }

/-- The value of a node is moved out and returned. -/
def moveOut (x : ℕ) (cell : Cell V) : Memory ι V :=
  { m with heap := Function.update m.heap x (some { cell with data := none })
           returned := cell.data :: m.returned }

/-- A node is freed. -/
def free (x : ℕ) : Memory ι V :=
  { m with heap := Function.update m.heap x none, hazards := m.hazards.free x }

variable [DecidableEq ι]

/-- A thread stores to one of its hazard pointers. -/
def store (t : ι) (k : Fin 2) (value : Option ℕ) : Memory ι V :=
  { m with hazards := m.hazards.store (t, k) value }

end Memory

/-- `push` behind its test of `tail_`. -/
def pushOn (node tail : ℕ) : Option ℕ → Place
  | none => .pushLink node tail
  | some next => .pushHelp node tail next

/-- `pop` of a queue whose `tail_` is its `head_`: it is empty, or `tail_` is behind. -/
def popAtTail (head : ℕ) : Option ℕ → Place
  | none => .resetNext
  | some next => .popHelp head next

/-- **One step of a thread.**  A node is made wherever nothing is allocated; a step that goes to a
node needs it to be allocated.  While the thread is anywhere, an unguarded node may be freed. -/
inductive Next [DecidableEq ι] (t : ι) : Memory ι V → Place → Memory ι V → Place → Prop
  | push {m : Memory ι V} (v : V) {x : ℕ} (unused : m.heap x = none) :
      Next t m .idle (m.make x v) (.getNode (.push x))
  | pop {m : Memory ι V} : Next t m .idle m (.getNode .pop)
  | getNode {m : Memory ι V} {op : Op} : Next t m (.getNode op) m (.markNode op (m.anchor op))
  | markNode {m : Memory ι V} {op : Op} {tempNode : ℕ} :
      Next t m (.markNode op tempNode) (m.store t 0 (some tempNode)) (.getNodeAgain op tempNode)
  | getNodeAgain {m : Memory ι V} {op : Op} {tempNode : ℕ} :
      Next t m (.getNodeAgain op tempNode) m
        (if m.anchor op = tempNode then .getNext op tempNode else .getNode op)
  | getNext {m : Memory ι V} {op : Op} {node : ℕ} {cell : Cell V}
      (allocated : m.heap node = some cell) :
      Next t m (.getNext op node) m (.markNext op node cell.next)
  | markNext {m : Memory ι V} {op : Op} {node : ℕ} {tempNext : Option ℕ} :
      Next t m (.markNext op node tempNext) (m.store t 1 tempNext) (.getNextAgain op node tempNext)
  | getNextAgain {m : Memory ι V} {op : Op} {node : ℕ} {tempNext : Option ℕ} {cell : Cell V}
      (allocated : m.heap node = some cell) :
      Next t m (.getNextAgain op node tempNext) m
        (if cell.next = tempNext then .check op node tempNext else .getNode op)
  | checkPush {m : Memory ι V} {node tail : ℕ} {next : Option ℕ} :
      Next t m (.check (.push node) tail next) m
        (if m.tail = tail then pushOn node tail next else .getNode (.push node))
  | checkPop {m : Memory ι V} {head : ℕ} {next : Option ℕ} :
      Next t m (.check .pop head next) m
        (if m.head = head then .popTail head next else .getNode .pop)
  | pushLink {m : Memory ι V} {node tail : ℕ} {cell : Cell V}
      (allocated : m.heap tail = some cell) (null : cell.next = none) :
      Next t m (.pushLink node tail) (m.link tail cell node) (.pushSwing node tail)
  | pushLinkFails {m : Memory ι V} {node tail : ℕ} {cell : Cell V}
      (allocated : m.heap tail = some cell) (linked : cell.next ≠ none) :
      Next t m (.pushLink node tail) m (.getNode (.push node))
  | pushHelp {m : Memory ι V} {node tail next : ℕ} (equal : m.tail = tail) :
      Next t m (.pushHelp node tail next) { m with tail := next } (.getNode (.push node))
  | pushHelpFails {m : Memory ι V} {node tail next : ℕ} :
      Next t m (.pushHelp node tail next) m (.getNode (.push node))
  | pushSwing {m : Memory ι V} {node tail : ℕ} (equal : m.tail = tail) :
      Next t m (.pushSwing node tail) { m with tail := node } .resetNext
  | pushSwingFails {m : Memory ι V} {node tail : ℕ} :
      Next t m (.pushSwing node tail) m .resetNext
  | popTail {m : Memory ι V} {head : ℕ} {next : Option ℕ} :
      Next t m (.popTail head next) m
        (if m.tail = head then popAtTail head next else .popNext head next)
  | popHelp {m : Memory ι V} {head next : ℕ} (equal : m.tail = head) :
      Next t m (.popHelp head next) { m with tail := next } (.getNode .pop)
  | popHelpFails {m : Memory ι V} {head next : ℕ} :
      Next t m (.popHelp head next) m (.getNode .pop)
  | popNext {m : Memory ι V} {head : ℕ} {next : Option ℕ} {cell : Cell V}
      (allocated : m.heap head = some cell) :
      Next t m (.popNext head next) m
        (if cell.next = next then .popSwing head next else .getNode .pop)
  | popSwing {m : Memory ι V} {head next : ℕ} (equal : m.head = head) :
      Next t m (.popSwing head (some next)) { m with head := next } (.popMove next head)
  | popSwingFails {m : Memory ι V} {head next : ℕ} (different : m.head ≠ head) :
      Next t m (.popSwing head (some next)) m (.getNode .pop)
  | popMove {m : Memory ι V} {next head : ℕ} {cell : Cell V}
      (allocated : m.heap next = some cell) :
      Next t m (.popMove next head) (m.moveOut next cell) (.retire head)
  | retire {m : Memory ι V} {head : ℕ} :
      Next t m (.retire head) { m with hazards := m.hazards.retire head } .resetNext
  | resetNext {m : Memory ι V} : Next t m .resetNext (m.store t 1 none) .resetNode
  | resetNode {m : Memory ι V} : Next t m .resetNode (m.store t 0 none) .idle
  /-- The reclaimer frees a node. -/
  | free {m : Memory ι V} {p : Place} {x : ℕ} (waits : x ∈ m.hazards.waiting)
      (unguarded : m.hazards.guards x = ∅) : Next t m p (m.free x) p

/-- The queue when it is made: its first node is at address 0. -/
def new : Config ι (Memory ι V) Place :=
  ⟨⟨0, 0, Function.update (fun _ => none) 0 (some ⟨none, none⟩),
    ⟨fun _ => none, ∅, fun _ => ∅⟩, []⟩, fun _ => .idle⟩

/-! ## The numbered queue -/

section Numbered

variable {a : ConcurrentQueue.Memory V} {n x y k : ℕ}

/-- `head_` has passed the node. -/
def Passed (a : ConcurrentQueue.Memory V) (n : ℕ) : Prop := n ∈ (0 :: a.popped).dropLast

theorem Passed.index (h : Passed a n) (shape : ConcurrentQueue.Shape a) :
    ∃ k < a.popped.length, (0 :: a.linked)[k]? = some n := by
  obtain ⟨k, hk⟩ := List.mem_iff_getElem?.mp h
  rw [List.getElem?_dropLast] at hk
  split at hk
  · rename_i hlt
    exact ⟨k, by simpa using hlt, ConcurrentQueue.getElem?_of_isPrefix shape.popped hk⟩
  · simp at hk

/-- A node at or behind `head_` is not passed. -/
theorem not_passed (shape : ConcurrentQueue.Shape a) (at_n : (0 :: a.linked)[k]? = some n)
    (le : a.popped.length ≤ k) : ¬ Passed a n := by
  intro h
  obtain ⟨j, hj, hn⟩ := h.index shape
  have := shape.chain.index_unique hn at_n
  omega

theorem not_passed_head (shape : ConcurrentQueue.Shape a) : ¬ Passed a a.head :=
  not_passed shape shape.head le_rfl

theorem not_passed_tail (shape : ConcurrentQueue.Shape a) : ¬ Passed a a.tail := by
  obtain ⟨k, hk, htail⟩ := shape.tail
  exact not_passed shape htail hk

theorem not_passed_next (shape : ConcurrentQueue.Shape a) (next : a.next a.head = some y) :
    ¬ Passed a y :=
  not_passed shape (shape.chain.succ shape.head next) (Nat.le_succ _)

theorem Passed.mem (h : Passed a n) (shape : ConcurrentQueue.Shape a) : n ∈ 0 :: a.linked := by
  obtain ⟨k, -, hn⟩ := h.index shape
  exact List.mem_of_getElem? hn

/-- The nodes that were popped end with `head_`. -/
theorem popped_eq (shape : ConcurrentQueue.Shape a) :
    0 :: a.popped = (0 :: a.popped).dropLast ++ [a.head] := by
  have hlast : (0 :: a.popped).getLast (List.cons_ne_nil _ _) = a.head := by
    have hhead := shape.head
    rw [← List.getElem_length_sub_one_eq_getLast (by simp)]
    refine Option.some.inj (Eq.trans ?_ hhead)
    refine (ConcurrentQueue.getElem?_of_isPrefix shape.popped ?_).symm
    simp
  rw [← hlast, List.dropLast_append_getLast]

/-- **What is passed behind a `pop`**: one more node, the one that was the head. -/
theorem passed_swing (shape : ConcurrentQueue.Shape a) :
    Passed (a.swing y) n ↔ Passed a n ∨ n = a.head := by
  have hswing : (0 :: (a.swing y).popped).dropLast = 0 :: a.popped := by
    rw [ConcurrentQueue.Memory.swing, ← List.cons_append, List.dropLast_concat]
  unfold Passed
  rw [hswing, popped_eq shape, List.mem_append, List.mem_singleton, ← popped_eq shape]

/-- The nodes that are passed, and those from `head_` on. -/
theorem linked_eq (shape : ConcurrentQueue.Shape a) {rest : List ℕ}
    (split : a.popped ++ rest = a.linked) :
    0 :: a.linked = (0 :: a.popped).dropLast ++ a.head :: rest := by
  rw [← split, ← List.cons_append, popped_eq shape, List.append_assoc, List.singleton_append,
    ← popped_eq shape]

theorem mem_linked (shape : ConcurrentQueue.Shape a) {rest : List ℕ}
    (split : a.popped ++ rest = a.linked) :
    n ∈ 0 :: a.linked ↔ Passed a n ∨ n ∈ a.head :: rest := by
  rw [linked_eq shape split, List.mem_append]
  rfl

theorem not_passed_of_mem (shape : ConcurrentQueue.Shape a) {rest : List ℕ}
    (split : a.popped ++ rest = a.linked) (mem : n ∈ a.head :: rest) : ¬ Passed a n := by
  intro h
  have hnodup := shape.chain.nodup
  rw [linked_eq shape split] at hnodup
  exact (List.nodup_append.mp hnodup).2.2 n h n mem rfl

/-- **Where the nodes are**: pointers lead to linked nodes, and a node that is not linked belongs
to a `push`. -/
structure Placed (c : Config ι (ConcurrentQueue.Memory V) ConcurrentQueue.Place) : Prop where
  next : ∀ x y, c.shared.next x = some y → y ∈ c.shared.linked
  made : ∀ n < c.shared.nodes, n ∈ 0 :: c.shared.linked ∨ ∃ i, (c.pc i).own = some n

theorem placed_of_reachable [DecidableEq ι]
    {c : Config ι (ConcurrentQueue.Memory V) ConcurrentQueue.Place}
    (h : Reachable ConcurrentQueue.Next (fun _ _ _ => True) ConcurrentQueue.new c) : Placed c := by
  induction h with
  | start => exact ⟨by simp [ConcurrentQueue.new], by simp [ConcurrentQueue.new]⟩
  | @step c _ i _ _ taken ih =>
      obtain ⟨m, p, hmoved, rfl⟩ := taken
      -- only `push` and the link change the nodes: the other steps are quiet
      have hquiet : ∀ {m : ConcurrentQueue.Memory V}, m.nodes = c.shared.nodes →
          m.linked = c.shared.linked → m.next = c.shared.next → p.own = (c.pc i).own →
          Placed (c.move i m p) := by
        intro m hnodes hlinked hnext hown
        have hsame := c.forall_move_pc (s := m) hown
        refine ⟨?_, fun n hn => ?_⟩
        · simpa only [Config.move_shared, hnext, hlinked] using ih.next
        · simp only [Config.move_shared, hnodes, hlinked, hsame] at hn ⊢
          exact ih.made n hn
      rcases hmoved.cases with ⟨v, rfl, hp, rfl⟩ | ⟨node, tail, rfl, -, hp, rfl⟩ |
        ⟨y, rfl, -, hown, -⟩ | ⟨y, rfl, hp, rfl⟩ | ⟨y, rfl, hp, rfl⟩ | ⟨rfl, hown, -⟩
      · refine ⟨ih.next, fun n hn => ?_⟩
        rcases Nat.lt_succ_iff_lt_or_eq.mp hn with hlt | rfl
        · refine (ih.made n hlt).imp_right ?_
          rintro ⟨j, hj⟩
          refine ⟨j, ?_⟩
          rwa [Config.move_pc_of_ne]
          rintro rfl
          simp [hp, ConcurrentQueue.Place.own] at hj
        · exact .inr ⟨i, by rw [Config.move_pc_self]; rfl⟩
      · refine ⟨fun x y hxy => ?_, fun n hn => ?_⟩
        · simp only [Config.move_shared, ConcurrentQueue.Memory.link, List.mem_append,
            List.mem_singleton] at hxy ⊢
          by_cases hx : x = tail
          · rw [hx, Function.update_self] at hxy
            exact .inr (Option.some.inj hxy).symm
          · rw [Function.update_of_ne hx] at hxy
            exact .inl (ih.next x y hxy)
        -- the node that is linked was in the hands of this thread
        · rcases ih.made n hn with hmem | ⟨j, hj⟩
          · exact .inl (List.cons_subset_cons 0 (List.subset_append_left _ _) hmem)
          · by_cases hji : j = i
            · subst hji
              obtain rfl : node = n := by simpa [hp, ConcurrentQueue.Place.own] using hj
              exact .inl (by simp [ConcurrentQueue.Memory.link])
            · exact .inr ⟨j, by rwa [Config.move_pc_of_ne c hji]⟩
      · exact hquiet rfl rfl rfl hown
      · exact hquiet rfl rfl rfl (by rw [hp]; rfl)
      · exact hquiet rfl rfl rfl (by rw [hp]; rfl)
      · exact hquiet rfl rfl rfl hown

end Numbered

/-! ## Addresses and numbers -/

/-- The address of a node, and the nodes that were retired and those that were freed. -/
structure Nodes where
  addr : ℕ → ℕ
  out : Set ℕ
  gone : Set ℕ

/-- **The memory shows the numbered queue**: nodes that were not freed are allocated, at different
addresses, and nothing else is.  What was retired has been passed by `head_`. -/
structure Mirrors (m : Memory ι V) (a : ConcurrentQueue.Memory V) (g : Nodes) : Prop where
  head : m.head = g.addr a.head
  tail : m.tail = g.addr a.tail
  cell : ∀ n < a.nodes, n ∉ g.gone → m.heap (g.addr n) = some ⟨(a.next n).map g.addr, a.data n⟩
  apart : ∀ n < a.nodes, ∀ k < a.nodes, n ∉ g.gone → k ∉ g.gone → g.addr n = g.addr k → n = k
  used : ∀ x, m.heap x ≠ none → ∃ n < a.nodes, n ∉ g.gone ∧ g.addr n = x
  gone : g.gone ⊆ g.out
  passed : ∀ n ∈ g.out, Passed a n
  waiting : ∀ x, x ∈ m.hazards.waiting ↔ ∃ n ∈ g.out, n ∉ g.gone ∧ g.addr n = x
  returned : m.returned = a.returned.map Prod.snd

/-- A thread keeps a node from being freed. -/
structure Keeps (h : Hazards (ι × Fin 2) ℕ) (a : ConcurrentQueue.Memory V) (g : Nodes) (i : ι)
    (k : Fin 2) (x n : ℕ) : Prop where
  lt : n < a.nodes
  alive : n ∉ g.gone
  addr : g.addr n = x
  prot : h.Protects (i, k) x

section Mirrors

variable {m : Memory ι V} {a : ConcurrentQueue.Memory V} {g : Nodes} {n x : ℕ} {i : ι} {k : Fin 2}

/-- A node that is not passed is not freed. -/
theorem Mirrors.alive (h : Mirrors m a g) (live : ¬ Passed a n) : n ∉ g.gone :=
  fun hgone => live (h.passed n (h.gone hgone))

/-- A node that was not retired is not waiting at its address. -/
theorem Mirrors.notMem_waiting (h : Mirrors m a g) (shape : ConcurrentQueue.Shape a)
    (lt : n < a.nodes) (live : n ∉ g.out) : g.addr n ∉ m.hazards.waiting := by
  intro hwaits
  obtain ⟨j, hout, hgone, haddr⟩ := (h.waiting _).mp hwaits
  have hj : j < a.nodes := shape.allocated j ((h.passed j hout).mem shape)
  obtain rfl := h.apart j hj n lt hgone (fun hn => live (h.gone hn)) haddr
  exact live hout

/-- **A thread that has stored a node, and then found that it is not passed, keeps it.** -/
theorem Mirrors.keeps (h : Mirrors m a g) (shape : ConcurrentQueue.Shape a) (lt : n < a.nodes)
    (live : ¬ Passed a n) (slot : m.hazards.slot (i, k) = some (g.addr n)) :
    Keeps m.hazards a g i k (g.addr n) n :=
  ⟨lt, h.alive live, rfl,
    .of_notMem slot (h.notMem_waiting shape lt fun hout => live (h.passed n hout))⟩

/-- A node that a thread keeps is allocated. -/
theorem Keeps.cell (kept : Keeps m.hazards a g i k x n) (h : Mirrors m a g) :
    m.heap x = some ⟨(a.next n).map g.addr, a.data n⟩ :=
  kept.addr ▸ h.cell n kept.lt kept.alive

/-- A node that a thread keeps is told from the others by its address. -/
theorem Keeps.eq_iff (kept : Keeps m.hazards a g i k x n) (h : Mirrors m a g) {j : ℕ}
    (lt : j < a.nodes) (live : ¬ Passed a j) : g.addr j = x ↔ j = n := by
  constructor
  · intro heq
    exact h.apart j lt n kept.lt (h.alive live) kept.alive (heq.trans kept.addr.symm)
  · rintro rfl
    exact kept.addr

/-- The memories behind the making of a node. -/
theorem Mirrors.make (h : Mirrors m a g) (shape : ConcurrentQueue.Shape a)
    (next : ∀ x y, a.next x = some y → y ∈ a.linked) (unused : m.heap x = none) (v : V) :
    Mirrors (m.make x v) (a.make v) { g with addr := Function.update g.addr a.nodes x } := by
  have haddr : ∀ n < a.nodes, Function.update g.addr a.nodes x n = g.addr n :=
    fun n hn => Function.update_of_ne hn.ne _ _
  -- a live node has a cell, and the new cell was free: the addresses differ
  have hne : ∀ n < a.nodes, n ∉ g.gone → g.addr n ≠ x := by
    rintro n hn hgone rfl
    rw [h.cell n hn hgone] at unused
    exact Option.some_ne_none _ unused
  have hout : ∀ n ∈ g.out, n < a.nodes := fun n hn =>
    shape.allocated n ((h.passed n hn).mem shape)
  have hmap : ∀ n, (a.next n).map (Function.update g.addr a.nodes x) = (a.next n).map g.addr := by
    intro n
    rcases hn : a.next n with _ | y
    · rfl
    · exact congrArg some (haddr y (shape.allocated y (List.mem_cons_of_mem 0 (next n y hn))))
  constructor
  · exact h.head.trans (haddr _ (shape.allocated _ (List.cons_subset_cons 0 shape.popped.subset
      shape.head_mem))).symm
  · exact h.tail.trans (haddr _ (shape.allocated _ shape.tail_mem)).symm
  -- the cells of the old nodes are unchanged, and the new one is as it was made
  · intro n hn hgone
    simp only [Memory.make, ConcurrentQueue.Memory.make, hmap]
    rcases Nat.lt_succ_iff_lt_or_eq.mp hn with hlt | rfl
    · rw [haddr n hlt, Function.update_of_ne (hne n hlt hgone), Function.update_of_ne hlt.ne,
        h.cell n hlt hgone]
    · rw [Function.update_self, Function.update_self, Function.update_self, shape.fresh _ le_rfl]
      rfl
  -- two live nodes at one address: neither can be the new one unless both are
  · intro n hn k hk hgone hgone' heq
    dsimp only at heq
    rcases Nat.lt_succ_iff_lt_or_eq.mp hn with hlt | rfl
    · rcases Nat.lt_succ_iff_lt_or_eq.mp hk with hlt' | rfl
      · rw [haddr n hlt, haddr k hlt'] at heq
        exact h.apart n hlt k hlt' hgone hgone' heq
      · rw [haddr n hlt, Function.update_self] at heq
        exact absurd heq (hne n hlt hgone)
    · rcases Nat.lt_succ_iff_lt_or_eq.mp hk with hlt' | rfl
      · rw [haddr k hlt', Function.update_self] at heq
        exact absurd heq.symm (hne k hlt' hgone')
      · rfl
  -- the cells in use are the old ones and the new one
  · intro y hy
    by_cases hyx : y = x
    · subst hyx
      exact ⟨a.nodes, Nat.lt_succ_self _, fun hgone => lt_irrefl _ (hout _ (h.gone hgone)),
        Function.update_self _ _ _⟩
    · simp only [Memory.make, Function.update_of_ne hyx] at hy
      obtain ⟨n, hn, hgone, rfl⟩ := h.used y hy
      exact ⟨n, Nat.lt_succ_of_lt hn, hgone, haddr n hn⟩
  · exact h.gone
  · exact h.passed
  · intro y
    rw [show (m.make x v).hazards = m.hazards from rfl, h.waiting]
    refine exists_congr fun n => and_congr_right fun hn => and_congr_right fun _ => ?_
    dsimp only
    rw [haddr n (hout n hn)]
  · exact h.returned

/-- The memories behind a store to one node, whose number is known. -/
theorem Mirrors.cell_update (h : Mirrors m a g) {k : ℕ} (lt : k < a.nodes) (alive : k ∉ g.gone)
    {value : Cell V} {next' : ℕ → Option ℕ} {data' : ℕ → Option V}
    (self : value = ⟨(next' k).map g.addr, data' k⟩)
    (other : ∀ n ≠ k, next' n = a.next n ∧ data' n = a.data n) :
    ∀ n < a.nodes, n ∉ g.gone → Function.update m.heap (g.addr k) (some value) (g.addr n)
      = some ⟨(next' n).map g.addr, data' n⟩ := by
  intro n hn hgone
  by_cases hnk : n = k
  · subst hnk
    rw [Function.update_self, self]
  · have hne : g.addr n ≠ g.addr k := fun heq => hnk (h.apart n hn k lt hgone alive heq)
    rw [Function.update_of_ne hne, h.cell n hn hgone, (other n hnk).1, (other n hnk).2]

/-- The same addresses are in use. -/
theorem Mirrors.used_update (h : Mirrors m a g) {k : ℕ} (lt : k < a.nodes) (alive : k ∉ g.gone)
    {value : Option (Cell V)} {y : ℕ} (used : Function.update m.heap (g.addr k) value y ≠ none) :
    ∃ n < a.nodes, n ∉ g.gone ∧ g.addr n = y := by
  by_cases hy : y = g.addr k
  · exact ⟨k, lt, alive, hy.symm⟩
  · rw [Function.update_of_ne hy] at used
    exact h.used y used

/-- The memories behind the link of a node. -/
theorem Mirrors.link (h : Mirrors m a g) {k : ℕ} (lt : k < a.nodes) (alive : k ∉ g.gone)
    {cell : Cell V} (allocated : m.heap (g.addr k) = some cell) (n : ℕ) :
    Mirrors (m.link (g.addr k) cell (g.addr n)) (a.link n k) g := by
  have hcell := Option.some.inj (allocated.symm.trans (h.cell k lt alive))
  refine ⟨h.head, h.tail, h.cell_update lt alive ?_ fun j hj => ⟨Function.update_of_ne hj _ _, rfl⟩,
    h.apart, fun y hy => h.used_update lt alive hy, h.gone, h.passed, h.waiting, h.returned⟩
  have hnext : (a.link n k).next k = some n := Function.update_self _ _ _
  rw [hcell, hnext]
  rfl

/-- The memories behind the move of a value. -/
theorem Mirrors.moveOut (h : Mirrors m a g) {k : ℕ} (lt : k < a.nodes) (alive : k ∉ g.gone)
    {cell : Cell V} (allocated : m.heap (g.addr k) = some cell) :
    Mirrors (m.moveOut (g.addr k) cell) (a.moveOut k) g := by
  have hcell := Option.some.inj (allocated.symm.trans (h.cell k lt alive))
  refine ⟨h.head, h.tail, h.cell_update lt alive ?_ fun j hj => ⟨rfl, Function.update_of_ne hj _ _⟩,
    h.apart, fun y hy => h.used_update lt alive hy, h.gone, h.passed, h.waiting, ?_⟩
  · have hdata : (a.moveOut k).data k = none := Function.update_self _ _ _
    rw [hcell, hdata]
    rfl
  · rw [hcell]
    exact congrArg (a.data k :: ·) h.returned

/-- The memories behind a swing of `tail_`. -/
theorem Mirrors.tail_move (h : Mirrors m a g) (y : ℕ) :
    Mirrors { m with tail := g.addr y } { a with tail := y } g :=
  ⟨h.head, rfl, h.cell, h.apart, h.used, h.gone, h.passed, h.waiting, h.returned⟩

/-- The memories behind a swing of `head_`. -/
theorem Mirrors.head_move (h : Mirrors m a g) (shape : ConcurrentQueue.Shape a) (y : ℕ) :
    Mirrors { m with head := g.addr y } (a.swing y) g :=
  ⟨rfl, h.tail, h.cell, h.apart, h.used, h.gone,
    fun n hn => (passed_swing shape).mpr (.inl (h.passed n hn)), h.waiting, h.returned⟩

/-- The memories behind a `retire`. -/
theorem Mirrors.retire (h : Mirrors m a g) (passed : Passed a n) (alive : n ∉ g.gone) :
    Mirrors { m with hazards := m.hazards.retire (g.addr n) } a
      { g with out := insert n g.out } := by
  refine ⟨h.head, h.tail, h.cell, h.apart, h.used, h.gone.trans (Set.subset_insert _ _), ?_, ?_,
    h.returned⟩
  · rintro k (rfl | hk)
    · exact passed
    · exact h.passed k hk
  · intro x
    constructor
    · rintro (rfl | hx)
      · exact ⟨n, Set.mem_insert _ _, alive, rfl⟩
      · obtain ⟨k, hk, hrest⟩ := (h.waiting x).mp hx
        exact ⟨k, Set.mem_insert_of_mem _ hk, hrest⟩
    · rintro ⟨k, rfl | hk, hgone, rfl⟩
      · exact Set.mem_insert _ _
      · exact Set.mem_insert_of_mem _ ((h.waiting _).mpr ⟨k, hk, hgone, rfl⟩)

/-- The memories behind the end of a node. -/
theorem Mirrors.free (h : Mirrors m a g) (shape : ConcurrentQueue.Shape a) (out : n ∈ g.out)
    (alive : n ∉ g.gone) : Mirrors (m.free (g.addr n)) a { g with gone := insert n g.gone } := by
  have hlt : ∀ k ∈ g.out, k < a.nodes := fun k hk =>
    shape.allocated k ((h.passed k hk).mem shape)
  have hne : ∀ k < a.nodes, k ∉ insert n g.gone → g.addr k ≠ g.addr n ∧ k ∉ g.gone := by
    intro k hk hgone
    obtain ⟨hkn, hgone⟩ := not_or.mp hgone
    exact ⟨fun heq => hkn (h.apart k hk n (hlt n out) hgone alive heq), hgone⟩
  refine ⟨h.head, h.tail, fun k hk hgone => ?_, fun k hk j hj hgone hgone' => ?_, fun y hy => ?_,
    Set.insert_subset out h.gone, h.passed, fun x => ?_, h.returned⟩
  · obtain ⟨haddr, hgone⟩ := hne k hk hgone
    exact (Function.update_of_ne haddr _ _).trans (h.cell k hk hgone)
  · exact h.apart k hk j hj (hne k hk hgone).2 (hne j hj hgone').2
  · have hyn : y ≠ g.addr n := by
      rintro rfl
      exact hy (Function.update_self _ _ _)
    obtain ⟨k, hk, hgone, rfl⟩ := h.used y ((Function.update_of_ne hyn _ _).symm.trans_ne hy)
    refine ⟨k, hk, not_or.mpr ⟨?_, hgone⟩, rfl⟩
    rintro rfl
    exact hyn rfl
  · constructor
    · rintro ⟨hx, hxn⟩
      obtain ⟨k, hk, hgone, rfl⟩ := (h.waiting x).mp hx
      refine ⟨k, hk, not_or.mpr ⟨?_, hgone⟩, rfl⟩
      rintro rfl
      exact hxn rfl
    · rintro ⟨k, hk, hgone, rfl⟩
      obtain ⟨haddr, hgone⟩ := hne k (hlt k hk) hgone
      exact ⟨(h.waiting _).mpr ⟨k, hk, hgone, rfl⟩, haddr⟩

end Mirrors

/-- A pointer that was loaded from a node, as an address and as a number. -/
inductive Points (a : ConcurrentQueue.Memory V) (g : Nodes) (n : ℕ) : Option ℕ → Option ℕ → Prop
  | null : Points a g n none none
  | node {x y : ℕ} (lt : y < a.nodes) (addr : g.addr y = x) (next : a.next n = some y) :
      Points a g n (some x) (some y)

/-- The node of a `push`, as an address and as a number. -/
inductive Calls (a : ConcurrentQueue.Memory V) (g : Nodes) : Op → ConcurrentQueue.Op → Prop
  | push {x n : ℕ} (lt : n < a.nodes) (addr : g.addr n = x) : Calls a g (.push x) (.push n)
  | pop : Calls a g .pop .pop

/-- **What the places have to do with each other**, and the node that the thread has to retire.
A thread is in the loop of `get_node_and_next`, when its number is at the start of it, until it
has found the node a second time. -/
inductive Follows (h : Hazards (ι × Fin 2) ℕ) (a : ConcurrentQueue.Memory V) (g : Nodes) (i : ι) :
    Place → ConcurrentQueue.Place → Option ℕ → Prop
  | idle : Follows h a g i .idle .idle none
  | getNode {op : Op} {op' : ConcurrentQueue.Op} (calls : Calls a g op op') :
      Follows h a g i (.getNode op) (.getNode op') none
  | markNode {op : Op} {op' : ConcurrentQueue.Op} {temp : ℕ} (calls : Calls a g op op') :
      Follows h a g i (.markNode op temp) (.getNode op') none
  | getNodeAgain {op : Op} {op' : ConcurrentQueue.Op} {temp : ℕ} (calls : Calls a g op op')
      (slot : h.slot (i, 0) = some temp) :
      Follows h a g i (.getNodeAgain op temp) (.getNode op') none
  | getNext {op : Op} {op' : ConcurrentQueue.Op} {x n : ℕ} (calls : Calls a g op op')
      (kept : Keeps h a g i 0 x n) : Follows h a g i (.getNext op x) (.getNext op' n) none
  | markNext {op : Op} {op' : ConcurrentQueue.Op} {x n : ℕ} {temp temp' : Option ℕ}
      (calls : Calls a g op op') (kept : Keeps h a g i 0 x n) (points : Points a g n temp temp') :
      Follows h a g i (.markNext op x temp) (.getNextAgain op' n temp') none
  | getNextAgain {op : Op} {op' : ConcurrentQueue.Op} {x n : ℕ} {temp temp' : Option ℕ}
      (calls : Calls a g op op') (kept : Keeps h a g i 0 x n) (points : Points a g n temp temp')
      (slot : h.slot (i, 1) = temp) :
      Follows h a g i (.getNextAgain op x temp) (.getNextAgain op' n temp') none
  | check {op : Op} {op' : ConcurrentQueue.Op} {x n : ℕ} {temp temp' : Option ℕ}
      (calls : Calls a g op op') (kept : Keeps h a g i 0 x n) (points : Points a g n temp temp')
      (slot : h.slot (i, 1) = temp) :
      Follows h a g i (.check op x temp) (.check op' n temp') none
  | pushLink {node node' x n : ℕ} (calls : Calls a g (.push node) (.push node'))
      (kept : Keeps h a g i 0 x n) : Follows h a g i (.pushLink node x) (.pushLink node' n) none
  | pushHelp {node node' x n y z : ℕ} (calls : Calls a g (.push node) (.push node'))
      (kept : Keeps h a g i 0 x n) (points : Points a g n (some y) (some z)) :
      Follows h a g i (.pushHelp node x y) (.pushHelp node' n z) none
  | pushSwing {node node' x n : ℕ} (calls : Calls a g (.push node) (.push node'))
      (kept : Keeps h a g i 0 x n) : Follows h a g i (.pushSwing node x) (.pushSwing node' n) none
  | popTail {x n : ℕ} {next next' : Option ℕ} (kept : Keeps h a g i 0 x n)
      (points : Points a g n next next')
      (kept_next : ∀ y z, next = some y → next' = some z → Keeps h a g i 1 y z) :
      Follows h a g i (.popTail x next) (.popTail n next') none
  | popHelp {x n y z : ℕ} (kept : Keeps h a g i 0 x n) (points : Points a g n (some y) (some z)) :
      Follows h a g i (.popHelp x y) (.popHelp n z) none
  | popNext {x n : ℕ} {next next' : Option ℕ} (kept : Keeps h a g i 0 x n)
      (points : Points a g n next next')
      (kept_next : ∀ y z, next = some y → next' = some z → Keeps h a g i 1 y z) :
      Follows h a g i (.popNext x next) (.popNext n next') none
  | popSwing {x n : ℕ} {next next' : Option ℕ} (kept : Keeps h a g i 0 x n)
      (points : Points a g n next next')
      (kept_next : ∀ y z, next = some y → next' = some z → Keeps h a g i 1 y z) :
      Follows h a g i (.popSwing x next) (.popSwing n next') none
  | popMove {x n y z : ℕ} (lt : n < a.nodes) (addr : g.addr n = x) (kept : Keeps h a g i 1 y z) :
      Follows h a g i (.popMove y x) (.popMove z) (some n)
  | retire {x n : ℕ} (lt : n < a.nodes) (addr : g.addr n = x) :
      Follows h a g i (.retire x) .idle (some n)
  | resetNext : Follows h a g i .resetNext .idle none
  | resetNode : Follows h a g i .resetNode .idle none

/-- The node that the next step reads or writes. -/
def Place.touches : Place → Option ℕ
  | .getNext _ node | .getNextAgain _ node _ => some node
  | .pushLink _ tail => some tail
  | .popNext head _ => some head
  | .popMove next _ => some next
  | _ => none

section Follows

variable {h : Hazards (ι × Fin 2) ℕ} {a : ConcurrentQueue.Memory V} {g : Nodes} {i : ι} {p : Place}
  {q : ConcurrentQueue.Place} {owed : Option ℕ} {x : ℕ}

/-- A thread keeps the node that its next step goes to. -/
theorem Follows.kept (follows : Follows h a g i p q owed) (touched : p.touches = some x) :
    ∃ k n, Keeps h a g i k x n := by
  cases follows with
  | getNext _ kept | getNextAgain _ kept | pushLink _ kept | popNext kept =>
      obtain rfl := Option.some.inj touched
      exact ⟨0, _, kept⟩
  | popMove _ _ kept =>
      obtain rfl := Option.some.inj touched
      exact ⟨1, _, kept⟩
  | _ => exact absurd touched.symm (Option.some_ne_none _)

/-- A thread that is going to retire a node owes it. -/
theorem Follows.retires (follows : Follows h a g i (.retire x) q owed) :
    ∃ n < a.nodes, g.addr n = x ∧ owed = some n := by
  cases follows with
  | retire lt addr => exact ⟨_, lt, addr, rfl⟩

/-- A thread that is at rest owes nothing. -/
theorem Follows.rests (follows : Follows h a g i .idle q owed) : q = .idle ∧ owed = none := by
  cases follows
  exact ⟨rfl, rfl⟩

end Follows

/-- **What a thread may rely on**, whatever another one does: numbers keep their addresses and
pointers, and nodes that the thread keeps are kept. -/
structure Rely (h h' : Hazards (ι × Fin 2) ℕ) (a a' : ConcurrentQueue.Memory V) (g g' : Nodes)
    (i : ι) : Prop where
  nodes : a.nodes ≤ a'.nodes
  addr : ∀ n < a.nodes, g'.addr n = g.addr n
  next : ∀ x y, a.next x = some y → a'.next x = some y
  slot : ∀ k, h'.slot (i, k) = h.slot (i, k)
  keeps : ∀ k x n, Keeps h a g i k x n → Keeps h' a' g' i k x n

section Rely

variable {h h' : Hazards (ι × Fin 2) ℕ} {a a' : ConcurrentQueue.Memory V} {g g' : Nodes} {i : ι}

theorem Rely.points (rely : Rely h h' a a' g g' i) {n : ℕ} {t t' : Option ℕ}
    (points : Points a g n t t') : Points a' g' n t t' := by
  cases points with
  | null => exact .null
  | node lt addr next =>
      exact .node (lt.trans_le rely.nodes) ((rely.addr _ lt).trans addr) (rely.next _ _ next)

theorem Rely.calls (rely : Rely h h' a a' g g' i) {op : Op} {op' : ConcurrentQueue.Op}
    (calls : Calls a g op op') : Calls a' g' op op' := by
  cases calls with
  | push lt addr => exact .push (lt.trans_le rely.nodes) ((rely.addr _ lt).trans addr)
  | pop => exact .pop

/-- What a thread relies on is all that its places have to do with. -/
theorem Rely.follows (rely : Rely h h' a a' g g' i) {p : Place} {q : ConcurrentQueue.Place}
    {owed : Option ℕ} (follows : Follows h a g i p q owed) : Follows h' a' g' i p q owed := by
  cases follows with
  | idle => exact .idle
  | getNode calls => exact .getNode (rely.calls calls)
  | markNode calls => exact .markNode (rely.calls calls)
  | getNodeAgain calls slot => exact .getNodeAgain (rely.calls calls) ((rely.slot 0).trans slot)
  | getNext calls kept => exact .getNext (rely.calls calls) (rely.keeps _ _ _ kept)
  | markNext calls kept points =>
      exact .markNext (rely.calls calls) (rely.keeps _ _ _ kept) (rely.points points)
  | getNextAgain calls kept points slot =>
      exact .getNextAgain (rely.calls calls) (rely.keeps _ _ _ kept) (rely.points points)
        ((rely.slot 1).trans slot)
  | check calls kept points slot =>
      exact .check (rely.calls calls) (rely.keeps _ _ _ kept) (rely.points points)
        ((rely.slot 1).trans slot)
  | pushLink calls kept => exact .pushLink (rely.calls calls) (rely.keeps _ _ _ kept)
  | pushHelp calls kept points =>
      exact .pushHelp (rely.calls calls) (rely.keeps _ _ _ kept) (rely.points points)
  | pushSwing calls kept => exact .pushSwing (rely.calls calls) (rely.keeps _ _ _ kept)
  | popTail kept points kept_next =>
      exact .popTail (rely.keeps _ _ _ kept) (rely.points points) fun y z hy hz =>
        rely.keeps _ _ _ (kept_next y z hy hz)
  | popHelp kept points => exact .popHelp (rely.keeps _ _ _ kept) (rely.points points)
  | popNext kept points kept_next =>
      exact .popNext (rely.keeps _ _ _ kept) (rely.points points) fun y z hy hz =>
        rely.keeps _ _ _ (kept_next y z hy hz)
  | popSwing kept points kept_next =>
      exact .popSwing (rely.keeps _ _ _ kept) (rely.points points) fun y z hy hz =>
        rely.keeps _ _ _ (kept_next y z hy hz)
  | popMove lt addr kept =>
      exact .popMove (lt.trans_le rely.nodes) ((rely.addr _ lt).trans addr)
        (rely.keeps _ _ _ kept)
  | retire lt addr => exact .retire (lt.trans_le rely.nodes) ((rely.addr _ lt).trans addr)
  | resetNext => exact .resetNext
  | resetNode => exact .resetNode

theorem Rely.refl : Rely h h a a g g i :=
  ⟨le_rfl, fun _ _ => rfl, fun _ _ h => h, fun _ => rfl, fun _ _ _ h => h⟩

/-- The queue goes on. -/
theorem Rely.queue (nodes : a.nodes ≤ a'.nodes)
    (next : ∀ x y, a.next x = some y → a'.next x = some y) : Rely h h a a' g g i :=
  ⟨nodes, fun _ _ => rfl, next, fun _ => rfl, fun _ _ _ kept =>
    ⟨kept.lt.trans_le nodes, kept.alive, kept.addr, kept.prot⟩⟩

/-- A number gets an address. -/
theorem Rely.make (nodes : a.nodes ≤ a'.nodes) (same : a'.next = a.next)
    (addr : ∀ n < a.nodes, g'.addr n = g.addr n) (gone : g'.gone = g.gone) :
    Rely h h a a' g g' i :=
  ⟨nodes, addr, fun _ _ hxy => by rwa [same], fun _ => rfl, fun _ _ n kept =>
    ⟨kept.lt.trans_le nodes, gone ▸ kept.alive, (addr n kept.lt).trans kept.addr, kept.prot⟩⟩

/-- The hazard pointers of others, and retired nodes. -/
theorem Rely.hazards [DecidableEq ι] (step : HazardPointers.Step h h')
    (slot : ∀ k, h'.slot (i, k) = h.slot (i, k)) (addr : g'.addr = g.addr)
    (alive : ∀ k x n, Keeps h a g i k x n → n ∉ g'.gone) : Rely h h' a a g g' i :=
  ⟨le_rfl, fun _ _ => by rw [addr], fun _ _ h => h, slot, fun k x n kept =>
    ⟨kept.lt, alive k x n kept, by rw [addr, kept.addr],
      kept.prot.step step ((slot k).trans kept.prot.1)⟩⟩

end Rely

/-! ## The simulation -/

/-- **Who has to retire what**: every node that was passed was retired, or one thread is going to
retire it. -/
structure Debts (a : ConcurrentQueue.Memory V) (g : Nodes) (owes : ι → Option ℕ) : Prop where
  owed : ∀ i n, owes i = some n → n ∉ g.out ∧ Passed a n
  one : ∀ i j n, owes i = some n → owes j = some n → i = j
  all : ∀ n, Passed a n → n ∉ g.out → ∃ i, owes i = some n

/-- **The simulation.** -/
structure Sim (c : Config ι (Memory ι V) Place)
    (a : Config ι (ConcurrentQueue.Memory V) ConcurrentQueue.Place) (g : Nodes)
    (owes : ι → Option ℕ) : Prop where
  mirrors : Mirrors c.shared a.shared g
  debts : Debts a.shared g owes
  follows : ∀ i, Follows c.shared.hazards a.shared g i (c.pc i) (a.pc i) (owes i)

section Sim

variable [DecidableEq ι] {c : Config ι (Memory ι V) Place}
  {a a' : Config ι (ConcurrentQueue.Memory V) ConcurrentQueue.Place} {g g' : Nodes}
  {owes : ι → Option ℕ} {i : ι} {m : Memory ι V} {p : Place}

omit [DecidableEq ι] in
theorem sim_new : Sim (new : Config ι (Memory ι V) Place) ConcurrentQueue.new ⟨id, ∅, ∅⟩
    fun _ => none where
  mirrors := by
    have hfirst : (new : Config ι (Memory ι V) Place).shared.heap 0 = some ⟨none, none⟩ := by
      simp [new]
    have hrest : ∀ x ≠ 0, (new : Config ι (Memory ι V) Place).shared.heap x = none :=
      fun x hx => by simp [new, hx]
    refine ⟨rfl, rfl, fun n hn _ => ?_, fun n hn k hk _ _ _ => ?_, fun x hx => ?_, subset_rfl,
      fun n hn => absurd hn id, fun x => ?_, rfl⟩
    · obtain rfl := Nat.lt_one_iff.mp hn
      exact hfirst
    · exact (Nat.lt_one_iff.mp hn).trans (Nat.lt_one_iff.mp hk).symm
    · refine ⟨x, ?_, id, rfl⟩
      by_contra hge
      refine hx (hrest x ?_)
      rintro rfl
      exact hge Nat.one_pos
    · simp [new]
  debts := ⟨by simp, by simp, by simp [Passed, ConcurrentQueue.new]⟩
  follows _ := .idle

/-- **A step of a thread**, by what it does to the memories and leaves of the others. -/
theorem Sim.step (h : Sim c a g owes) {owed : Option ℕ} (others : ∀ j ≠ i, a'.pc j = a.pc j)
    (mirrors : Mirrors m a'.shared g') (debts : Debts a'.shared g' (Function.update owes i owed))
    (rely : ∀ j ≠ i, Rely c.shared.hazards m.hazards a.shared a'.shared g g' j)
    (follows : Follows m.hazards a'.shared g' i p (a'.pc i) owed) :
    Sim (c.move i m p) a' g' (Function.update owes i owed) := by
  refine ⟨mirrors, debts, fun j => ?_⟩
  by_cases hji : j = i
  · subst hji
    rwa [Config.move_pc_self, Function.update_self]
  · rw [Config.move_pc_of_ne c hji, Function.update_of_ne hji, others j hji]
    exact (rely j hji).follows (h.follows j)

/-- **A step that changes no more than the hazard pointers of its thread.** -/
theorem Sim.quiet (h : Sim c a g owes) {owed : Option ℕ} (same : owes i = owed)
    (shared : a'.shared = a.shared) (others : ∀ j ≠ i, a'.pc j = a.pc j)
    (memory : m = c.shared ∨ ∃ k v, m = c.shared.store i k v)
    (follows : Follows m.hazards a.shared g i p (a'.pc i) owed) :
    Sim (c.move i m p) a' g owes := by
  have howes : Function.update owes i owed = owes := by rw [← same, Function.update_eq_self]
  rw [← howes]
  refine h.step others ?_ (by rw [howes, shared]; exact h.debts) (fun j hj => ?_)
    (by rwa [shared])
  · rw [shared]
    rcases memory with rfl | ⟨k, v, rfl⟩
    · exact h.mirrors
    · exact ⟨h.mirrors.head, h.mirrors.tail, h.mirrors.cell, h.mirrors.apart, h.mirrors.used,
        h.mirrors.gone, h.mirrors.passed, h.mirrors.waiting, h.mirrors.returned⟩
  · rw [shared]
    rcases memory with rfl | ⟨k, v, rfl⟩
    · exact .refl
    · exact .hazards (.store _ _) (fun k' => Hazards.store_slot_of_ne (by simp [hj]) v) rfl
        fun _ _ _ kept => kept.alive

/-- The numbered queue stands still. -/
theorem Sim.stutters (h : Sim c a g owes) {owed : Option ℕ} (same : owes i = owed)
    (memory : m = c.shared ∨ ∃ k v, m = c.shared.store i k v)
    (follows : Follows m.hazards a.shared g i p (a.pc i) owed) :
    ∃ a', Reachable ConcurrentQueue.Next (fun _ _ _ => True) a a' ∧
      ∃ g' owes', Sim (c.move i m p) a' g' owes' :=
  ⟨a, .start, g, owes, h.quiet same rfl (fun _ _ => rfl) memory follows⟩

/-- The thread goes on in the numbered queue, and leaves it alone. -/
theorem Sim.reads (h : Sim c a g owes) {owed : Option ℕ} (same : owes i = owed)
    {q : ConcurrentQueue.Place}
    (run : Reachable ConcurrentQueue.Next (fun _ _ _ => True) a (a.move i a.shared q))
    (follows : Follows c.shared.hazards a.shared g i p q owed) :
    ∃ a', Reachable ConcurrentQueue.Next (fun _ _ _ => True) a a' ∧
      ∃ g' owes', Sim (c.move i c.shared p) a' g' owes' :=
  ⟨a.move i a.shared q, run, g, owes, h.quiet same rfl (fun _ hj => Config.move_pc_of_ne a hj _ _)
    (.inl rfl) (by rwa [Config.move_pc_self])⟩

/-- The thread changes the numbered queue. -/
theorem Sim.changes (h : Sim c a g owes) {owed : Option ℕ} {q₀ q : ConcurrentQueue.Place}
    {n : ConcurrentQueue.Memory V} (here : a.pc i = q₀)
    (moved : ConcurrentQueue.Next i a.shared q₀ n q) (mirrors : Mirrors m n g')
    (debts : Debts n g' (Function.update owes i owed))
    (rely : ∀ j ≠ i, Rely c.shared.hazards m.hazards a.shared n g g' j)
    (follows : Follows m.hazards n g' i p q owed) :
    ∃ a', Reachable ConcurrentQueue.Next (fun _ _ _ => True) a a' ∧
      ∃ g' owes', Sim (c.move i m p) a' g' owes' :=
  ⟨a.move i n q, Reachable.start.moveAt i here moved trivial, g', _,
    h.step (fun _ hj => Config.move_pc_of_ne a hj _ _) mirrors debts rely
      (by rwa [Config.move_pc_self])⟩

/-- Nobody owes anything else. -/
theorem Debts.same {a' : ConcurrentQueue.Memory V} (h : Debts a.shared g owes) {owed : Option ℕ}
    (same : owes i = owed) (popped : a'.popped = a.shared.popped) (out : g'.out = g.out) :
    Debts a' g' (Function.update owes i owed) := by
  have hpassed : ∀ n, Passed a' n ↔ Passed a.shared n := fun n => by
    unfold Passed
    rw [popped]
  have howes : Function.update owes i owed = owes := by rw [← same, Function.update_eq_self]
  rw [howes]
  refine ⟨fun j n hj => ?_, h.one, fun n hn hout => ?_⟩
  · rw [out, hpassed]
    exact h.owed j n hj
  · rw [out] at hout
    exact h.all n ((hpassed n).mp hn) hout

/-- A store to the other hazard pointer. -/
theorem Keeps.store {h : Hazards (ι × Fin 2) ℕ} {a : ConcurrentQueue.Memory V} {k k' : Fin 2}
    {x n : ℕ} (kept : Keeps h a g i k x n) (ne : k ≠ k') (v : Option ℕ) :
    Keeps (h.store (i, k') v) a g i k x n := by
  have hslot : (h.store (i, k') v).slot (i, k) = h.slot (i, k) :=
    Hazards.store_slot_of_ne (by simp [ne]) v
  exact ⟨kept.lt, kept.alive, kept.addr, kept.prot.step (.store _ _) (hslot.trans kept.prot.1)⟩

omit [DecidableEq ι] in
/-- A pointer that was loaded twice. -/
theorem Points.eq_iff {a : ConcurrentQueue.Memory V} {n : ℕ} {t t' : Option ℕ}
    (points : Points a g n t t') : (a.next n).map g.addr = t ↔ a.next n = t' := by
  cases points with
  | null => exact Option.map_eq_none_iff
  | node lt addr next => simp [next, addr]

omit [DecidableEq ι] in
/-- The pointer that a node has. -/
theorem points_next {a : ConcurrentQueue.Memory V} (shape : ConcurrentQueue.Shape a)
    (next : ∀ x y, a.next x = some y → y ∈ a.linked) (n : ℕ) :
    Points a g n ((a.next n).map g.addr) (a.next n) := by
  rcases hn : a.next n with _ | y
  · exact .null
  · exact .node (shape.allocated y (List.mem_cons_of_mem 0 (next n y hn))) rfl hn

omit [DecidableEq ι] in
/-- The number of the pointer that a call works on. -/
theorem Mirrors.anchor {a : ConcurrentQueue.Memory V} {op : Op} {op' : ConcurrentQueue.Op}
    (h : Mirrors m a g) (shape : ConcurrentQueue.Shape a) (calls : Calls a g op op') :
    m.anchor op = g.addr (op'.anchor a) ∧ op'.anchor a < a.nodes ∧ ¬ Passed a (op'.anchor a) := by
  cases calls with
  | push => exact ⟨h.tail, shape.allocated _ shape.tail_mem, not_passed_tail shape⟩
  | pop =>
      exact ⟨h.head, shape.allocated _ (List.cons_subset_cons 0 shape.popped.subset shape.head_mem),
        not_passed_head shape⟩

/-- **The loads of a thread** are followed in the numbered queue. -/
theorem Sim.getNode (h : Sim c a g owes) (shape : ConcurrentQueue.Shape a.shared) {op : Op}
    {op' : ConcurrentQueue.Op} {temp : ℕ} (calls : Calls a.shared g op op')
    (slot : c.shared.hazards.slot (i, 0) = some temp) (here : a.pc i = .getNode op')
    (none : owes i = none) :
    ∃ a', Reachable ConcurrentQueue.Next (fun _ _ _ => True) a a' ∧ ∃ g' owes',
      Sim (c.move i c.shared (if c.shared.anchor op = temp then .getNext op temp else .getNode op))
        a' g' owes' := by
  obtain ⟨hanchor, hlt, hlive⟩ := h.mirrors.anchor shape calls
  split
  · rename_i heq
    subst heq
    have hstart : Reachable ConcurrentQueue.Next (fun _ _ _ => True) a a := .start
    have hrun := (hstart.moveAt i here .getNode trivial).moveAt i (Config.move_pc_self _ _ _ _)
      .getNodeAgain trivial
    rw [Config.move_shared, if_pos rfl, Config.move_move] at hrun
    rw [hanchor] at slot ⊢
    exact h.reads none hrun (.getNext calls (h.mirrors.keeps shape hlt hlive slot))
  · exact h.stutters none (.inl rfl) (by rw [here]; exact .getNode calls)

/-- **A thread frees nodes** that nobody keeps. -/
theorem Sim.free (h : Sim c a g owes) (shape : ConcurrentQueue.Shape a.shared) {x : ℕ}
    (waits : x ∈ c.shared.hazards.waiting) (unguarded : c.shared.hazards.guards x = ∅) :
    ∃ g', Sim (c.move i (c.shared.free x) (c.pc i)) a g' owes := by
  obtain ⟨n, hout, hgone, rfl⟩ := (h.mirrors.waiting x).mp waits
  have hrely : ∀ j, Rely c.shared.hazards (c.shared.hazards.free (g.addr n)) a.shared a.shared g
      { g with gone := insert n g.gone } j := by
    refine fun j => .hazards (.free waits unguarded) (fun _ => rfl) rfl fun k x k' kept => ?_
    refine not_or.mpr ⟨?_, kept.alive⟩
    rintro rfl
    obtain rfl := kept.addr
    exact kept.prot.guards_ne_empty waits unguarded
  refine ⟨_, h.mirrors.free shape hout hgone, ⟨h.debts.owed, h.debts.one, h.debts.all⟩, fun j => ?_⟩
  have hpc : (c.move i (c.shared.free (g.addr n)) (c.pc i)).pc j = c.pc j :=
    c.forall_move_pc (f := fun p => p) rfl j
  rw [hpc]
  exact (hrely j).follows (h.follows j)

/-- **`pop` has passed a node**, which it is going to retire. -/
theorem Debts.swing (h : Debts a.shared g owes) (shape : ConcurrentQueue.Shape a.shared)
    (passed : ∀ n ∈ g.out, Passed a.shared n) (none : owes i = none) (y : ℕ) :
    Debts (a.shared.swing y) g (Function.update owes i (some a.shared.head)) := by
  have hhead := not_passed_head shape
  have hcases : ∀ j n, Function.update owes i (some a.shared.head) j = some n →
      (j = i ∧ n = a.shared.head) ∨ (j ≠ i ∧ owes j = some n) := by
    intro j n hj
    by_cases hji : j = i
    · subst hji
      rw [Function.update_self] at hj
      exact .inl ⟨rfl, (Option.some.inj hj).symm⟩
    · rw [Function.update_of_ne hji] at hj
      exact .inr ⟨hji, hj⟩
  refine ⟨fun j n hj => ?_, fun j k n hj hk => ?_, fun n hn hout => ?_⟩
  · rcases hcases j n hj with ⟨-, rfl⟩ | ⟨-, hj⟩
    · exact ⟨fun hout => hhead (passed _ hout), (passed_swing shape).mpr (.inr rfl)⟩
    · exact ⟨(h.owed j n hj).1, (passed_swing shape).mpr (.inl (h.owed j n hj).2)⟩
  · rcases hcases j n hj with ⟨hji, rfl⟩ | ⟨-, hj⟩
    · rcases hcases k _ hk with ⟨hki, -⟩ | ⟨-, hk⟩
      · exact hji.trans hki.symm
      · exact absurd (h.owed k _ hk).2 hhead
    · rcases hcases k n hk with ⟨-, rfl⟩ | ⟨-, hk⟩
      · exact absurd (h.owed j _ hj).2 hhead
      · exact h.one j k n hj hk
  · rcases (passed_swing shape).mp hn with hn | rfl
    · obtain ⟨j, hj⟩ := h.all n hn hout
      refine ⟨j, ?_⟩
      rw [Function.update_of_ne, hj]
      rintro rfl
      exact Option.some_ne_none n (hj.symm.trans none)
    · exact ⟨i, Function.update_self _ _ _⟩

/-- A node is retired, and nobody else owes it. -/
theorem Debts.retire {a : ConcurrentQueue.Memory V} (h : Debts a g owes) {n : ℕ}
    (here : owes i = some n) :
    Debts a { g with out := insert n g.out } (Function.update owes i none) := by
  have hcases : ∀ j k, Function.update owes i none j = some k → owes j = some k ∧ k ≠ n := by
    intro j k hj
    by_cases hji : j = i
    · subst hji
      simp at hj
    · rw [Function.update_of_ne hji] at hj
      refine ⟨hj, ?_⟩
      rintro rfl
      exact hji (h.one j i k hj here)
  refine ⟨fun j k hj => ?_, fun j j' k hj hj' => ?_, fun k hk hout => ?_⟩
  · obtain ⟨hj, hne⟩ := hcases j k hj
    exact ⟨not_or.mpr ⟨hne, (h.owed j k hj).1⟩, (h.owed j k hj).2⟩
  · exact h.one j j' k (hcases j k hj).1 (hcases j' k hj').1
  · obtain ⟨hne, hout⟩ := not_or.mp hout
    obtain ⟨j, hj⟩ := h.all k hk hout
    refine ⟨j, ?_⟩
    rw [Function.update_of_ne, hj]
    rintro rfl
    exact hne (Option.some.inj (hj.symm.trans here))

/-- **Every step is followed** in the numbered queue. -/
theorem Sim.move (h : Sim c a g owes)
    (reached : Reachable ConcurrentQueue.Next (fun _ _ _ => True) ConcurrentQueue.new a)
    (moved : Next i c.shared (c.pc i) m p) :
    ∃ a', Reachable ConcurrentQueue.Next (fun _ _ _ => True) a a' ∧
      ∃ g' owes', Sim (c.move i m p) a' g' owes' := by
  obtain ⟨hwhole, hlocal⟩ := ConcurrentQueue.invariant_of_reachable reached
  have hplaced := placed_of_reachable reached
  have hshape := hwhole.shape
  have hmirrors := h.mirrors
  have hstart : Reachable ConcurrentQueue.Next (fun _ _ _ => True) a a := .start
  have hqueue : ∀ {n : ConcurrentQueue.Memory V}, a.shared.nodes ≤ n.nodes →
      (∀ x y, a.shared.next x = some y → n.next x = some y) → ∀ j ≠ i,
      Rely c.shared.hazards c.shared.hazards a.shared n g g j :=
    fun hnodes hnext _ _ => .queue hnodes hnext
  have hfollows := h.follows i
  have hknows := hlocal i
  generalize hp : c.pc i = p₀ at moved hfollows
  generalize hq : a.pc i = q₀ at hfollows hknows
  generalize ho : owes i = owed at hfollows
  cases moved with
  -- the collector frees a node that no call can name: the numbered queue does not move
  | @free _ x waits unguarded =>
      obtain ⟨g', hsim⟩ := h.free (i := i) hshape waits unguarded
      rw [hp] at hsim
      exact ⟨a, hstart, g', owes, hsim⟩
  -- a fresh node is made in both memories, at the next number
  | @push v x unused =>
      cases hfollows
      have hrely : ∀ j ≠ i, Rely c.shared.hazards c.shared.hazards a.shared (a.shared.make v) g
          { g with addr := Function.update g.addr a.shared.nodes x } j := fun j _ =>
        .make (Nat.le_succ _) rfl (fun n hn => Function.update_of_ne hn.ne _ _) rfl
      exact h.changes hq (.push v) (hmirrors.make hshape hplaced.next unused v)
        (h.debts.same ho rfl rfl) hrely
        (.getNode (.push (Nat.lt_succ_self _) (Function.update_self _ _ _)))
  | pop =>
      cases hfollows
      exact h.reads ho (hstart.moveAt i hq .pop trivial) (.getNode .pop)
  | getNode =>
      cases hfollows with
      | getNode calls => exact h.stutters ho (.inl rfl) (by rw [hq]; exact .markNode calls)
  -- marks are stores to a slot of hazards: the numbered queue has none, so it stands still
  | markNode =>
      cases hfollows with
      | markNode calls =>
          exact h.stutters ho (.inr ⟨0, _, rfl⟩) (by
            rw [hq]
            exact .getNodeAgain calls (Hazards.store_slot_self _ _))
  -- the check against the end just read: from here on the node is kept by the mark
  | getNodeAgain =>
      cases hfollows with
      | getNodeAgain calls slot => exact h.getNode hshape calls slot hq ho
  -- both calls read the next pointer of a node that the mark keeps from being freed
  | getNext allocated =>
      cases hfollows with
      | getNext calls kept =>
          obtain rfl := Option.some.inj ((kept.cell hmirrors).symm.trans allocated)
          exact h.reads ho (hstart.moveAt i hq .getNext trivial)
            (.markNext calls kept (points_next hshape hplaced.next _))
  | markNext =>
      cases hfollows with
      | markNext calls kept points =>
          exact h.stutters ho (.inr ⟨1, _, rfl⟩) (by
            rw [hq]
            exact .getNextAgain calls (kept.store (by decide) _) points
              (Hazards.store_slot_self _ _))
  | getNextAgain allocated =>
      cases hfollows with
      | getNextAgain calls kept points slot =>
          obtain rfl := Option.some.inj ((kept.cell hmirrors).symm.trans allocated)
          have hrun := hstart.moveAt i hq .getNextAgain trivial
          -- a pointer to a kept node is equal to what was read iff the numbers are equal
          simp only [points.eq_iff]
          split
          · rename_i heq
            rw [if_pos heq] at hrun
            exact h.reads ho hrun (.check calls kept points slot)
          · rename_i hne
            rw [if_neg hne] at hrun
            exact h.reads ho hrun (.getNode calls)
  | checkPush =>
      cases hfollows with
      | check calls kept points slot =>
          cases calls with
          | @push x n lt addr =>
              have hrun := hstart.moveAt i hq .checkPush trivial
              have hiff := kept.eq_iff hmirrors (hshape.allocated _ hshape.tail_mem)
                (not_passed_tail hshape)
              simp only [hmirrors.tail, hiff]
              split
              · rename_i heq
                rw [if_pos heq] at hrun
                cases points with
                | null => exact h.reads ho hrun (.pushLink (.push lt addr) kept)
                | node lt' addr' next =>
                    exact h.reads ho hrun
                      (.pushHelp (.push lt addr) kept (.node lt' addr' next))
              · rename_i hne
                rw [if_neg hne] at hrun
                exact h.reads ho hrun (.getNode (.push lt addr))
  | checkPop =>
      cases hfollows with
      | check calls kept points slot =>
          cases calls
          have hrun := hstart.moveAt i hq .checkPop trivial
          have hiff := kept.eq_iff hmirrors
            (hshape.allocated _ (List.cons_subset_cons 0 hshape.popped.subset hshape.head_mem))
            (not_passed_head hshape)
          simp only [hmirrors.head, hiff]
          split
          · rename_i heq
            rw [if_pos heq] at hrun
            refine h.reads ho hrun (.popTail kept points fun y z hy hz => ?_)
            subst hy hz heq
            cases points with
            | node lt addr next =>
                subst addr
                exact hmirrors.keeps hshape lt (not_passed_next hshape next) slot
          · rename_i hne
            rw [if_neg hne] at hrun
            exact h.reads ho hrun (.getNode .pop)
  -- the one step that makes a node reachable: a null next pointer is set
  | pushLink allocated null =>
      cases hfollows with
      | @pushLink _ node' x n calls kept =>
          have hcell := Option.some.inj ((kept.cell hmirrors).symm.trans allocated)
          have hnull : a.shared.next n = none := by
            rw [← hcell] at null
            exact Option.map_eq_none_iff.mp null
          have hnext : ∀ x y, a.shared.next x = some y →
              (a.shared.link node' n).next x = some y := by
            intro x y hxy
            have hne : x ≠ n := by
              rintro rfl
              simp [hnull] at hxy
            exact (Function.update_of_ne hne _ _).trans hxy
          have hrely := hqueue (n := a.shared.link node' n) le_rfl hnext
          obtain ⟨lt, alive, rfl, prot⟩ := kept
          cases calls with
          | push lt' addr =>
              subst addr
              exact h.changes hq (.pushLink hnull) (hmirrors.link lt alive allocated node')
                (h.debts.same ho rfl rfl) hrely
                (.pushSwing (.push lt' rfl) ⟨lt, alive, rfl, prot⟩)
  | pushLinkFails allocated linked =>
      cases hfollows with
      | @pushLink _ _ _ n calls kept =>
          have hcell := Option.some.inj ((kept.cell hmirrors).symm.trans allocated)
          have hlinked : a.shared.next n ≠ none := by
            rw [← hcell] at linked
            exact fun hnull => linked (Option.map_eq_none_iff.mpr hnull)
          exact h.reads ho (hstart.moveAt i hq (.pushLinkFails hlinked) trivial) (.getNode calls)
  | pushHelp equal =>
      cases hfollows with
      | pushHelp calls kept points =>
          rw [hmirrors.tail, kept.eq_iff hmirrors (hshape.allocated _ hshape.tail_mem)
            (not_passed_tail hshape)] at equal
          cases points with
          | node lt addr next =>
              subst addr
              exact h.changes hq (.pushHelp equal) (hmirrors.tail_move _)
                (h.debts.same ho rfl rfl) (hqueue le_rfl fun _ _ h => h) (.getNode (by
                  cases calls with
                  | push lt' addr' => exact .push lt' addr'))
  | pushHelpFails =>
      cases hfollows with
      | pushHelp calls kept points =>
          exact h.reads ho (hstart.moveAt i hq .pushHelpFails trivial) (.getNode calls)
  -- helping and finishing a push move `tail_` alike
  | pushSwing equal =>
      cases hfollows with
      | pushSwing calls kept =>
          rw [hmirrors.tail, kept.eq_iff hmirrors (hshape.allocated _ hshape.tail_mem)
            (not_passed_tail hshape)] at equal
          cases calls with
          | push lt addr =>
              subst addr
              exact h.changes hq (.pushSwing equal) (hmirrors.tail_move _)
                (h.debts.same ho rfl rfl) (hqueue le_rfl fun _ _ h => h) .resetNext
  | pushSwingFails =>
      cases hfollows
      exact h.reads ho (hstart.moveAt i hq .pushSwingFails trivial) .resetNext
  -- the end that `pop` compares decides whether it helps a push or takes the node
  | popTail =>
      cases hfollows with
      | popTail kept points kept_next =>
          have hrun := hstart.moveAt i hq .popTail trivial
          have hiff := kept.eq_iff hmirrors (hshape.allocated _ hshape.tail_mem)
            (not_passed_tail hshape)
          simp only [hmirrors.tail, hiff]
          split
          · rename_i heq
            rw [if_pos heq] at hrun
            cases points with
            | null => exact h.reads ho hrun .resetNext
            | node lt addr next => exact h.reads ho hrun (.popHelp kept (.node lt addr next))
          · rename_i hne
            rw [if_neg hne] at hrun
            exact h.reads ho hrun (.popNext kept points kept_next)
  | popHelp equal =>
      cases hfollows with
      | popHelp kept points =>
          rw [hmirrors.tail, kept.eq_iff hmirrors (hshape.allocated _ hshape.tail_mem)
            (not_passed_tail hshape)] at equal
          cases points with
          | node lt addr next =>
              subst addr
              exact h.changes hq (.popHelp equal) (hmirrors.tail_move _)
                (h.debts.same ho rfl rfl) (hqueue le_rfl fun _ _ h => h) (.getNode .pop)
  | popHelpFails =>
      cases hfollows
      exact h.reads ho (hstart.moveAt i hq .popHelpFails trivial) (.getNode .pop)
  | popNext allocated =>
      cases hfollows with
      | popNext kept points kept_next =>
          obtain rfl := Option.some.inj ((kept.cell hmirrors).symm.trans allocated)
          have hrun := hstart.moveAt i hq .popNext trivial
          simp only [points.eq_iff]
          split
          · rename_i heq
            rw [if_pos heq] at hrun
            exact h.reads ho hrun (.popSwing kept points kept_next)
          · rename_i hne
            rw [if_neg hne] at hrun
            exact h.reads ho hrun (.getNode .pop)
  -- `head_` moves past the node, and from here on this call owes its retirement
  | popSwing equal =>
      cases hfollows with
      | popSwing kept points kept_next =>
          rw [hmirrors.head, kept.eq_iff hmirrors
            (hshape.allocated _ (List.cons_subset_cons 0 hshape.popped.subset hshape.head_mem))
            (not_passed_head hshape)] at equal
          subst equal
          cases points with
          | @node x y lt addr next =>
              have hkept := kept_next _ _ rfl rfl
              subst addr
              exact h.changes hq (.popSwing rfl) (hmirrors.head_move hshape y)
                (h.debts.swing hshape hmirrors.passed ho y) (hqueue le_rfl fun _ _ h => h)
                (.popMove kept.lt kept.addr ⟨hkept.lt, hkept.alive, rfl, hkept.prot⟩)
  | popSwingFails different =>
      cases hfollows with
      | popSwing kept points kept_next =>
          rw [hmirrors.head, Ne, kept.eq_iff hmirrors
            (hshape.allocated _ (List.cons_subset_cons 0 hshape.popped.subset hshape.head_mem))
            (not_passed_head hshape)] at different
          cases points with
          | node lt addr next =>
              exact h.reads ho (hstart.moveAt i hq (.popSwingFails different) trivial)
                (.getNode .pop)
  | popMove allocated =>
      cases hfollows with
      | popMove lt addr kept =>
          obtain ⟨hlt, halive, rfl, -⟩ := kept
          exact h.changes hq .popMove (hmirrors.moveOut hlt halive allocated)
            (h.debts.same ho rfl rfl) (hqueue le_rfl fun _ _ h => h) (.retire lt addr)
  -- the node goes to the reclaimer: it is out of the queue and nobody else owes it
  | retire =>
      cases hfollows with
      | @retire _ n lt addr =>
          subst addr
          obtain ⟨hout, hpassed⟩ := h.debts.owed i n ho
          have hsim := h.step (fun _ _ => rfl)
            (hmirrors.retire hpassed fun hgone => hout (hmirrors.gone hgone))
            (h.debts.retire ho) (fun j _ => .hazards
              (.retire (hmirrors.notMem_waiting hshape lt hout)) (fun _ => rfl) rfl
              fun _ _ _ kept => kept.alive) (p := .resetNext) (by rw [hq]; exact .resetNext)
          exact ⟨a, hstart, _, _, hsim⟩
  -- the marks are cleared, which only weakens what the other calls may rely on
  | resetNext =>
      cases hfollows
      exact h.stutters ho (.inr ⟨1, _, rfl⟩) (by rw [hq]; exact .resetNode)
  | resetNode =>
      cases hfollows
      exact h.stutters ho (.inr ⟨0, _, rfl⟩) (by rw [hq]; exact .idle)

theorem sim_of_reachable (reached : Reachable Next (fun _ _ _ => True) new c) :
    ∃ a : Config ι (ConcurrentQueue.Memory V) ConcurrentQueue.Place,
      Reachable ConcurrentQueue.Next (fun _ _ _ => True) ConcurrentQueue.new a ∧
        ∃ g owes, Sim c a g owes := by
  refine Reachable.simulate (fun c a => ∃ g owes, Sim c a g owes) ⟨_, _, sim_new⟩ ?_ reached
  rintro c a i m p hreached ⟨g, owes, hsim⟩ hmoved
  exact hsim.move hreached hmoved

end Sim

/-! ## Results -/

/-- A run: one thread pushes a value, and the other one pops it. -/
theorem run_pop : ∃ c : Config (Fin 2) (Memory (Fin 2) ℕ) Place,
    Reachable Next (fun _ _ _ => True) new c ∧ c.shared.returned = [some 5] ∧ c.shared.tail = 1 ∧
      c.shared.heap 1 = some ⟨none, none⟩ ∧ c.shared.hazards.waiting = insert 0 ∅ ∧
      c.shared.hazards.guards 0 = ∅ ∧ ∀ i, c.pc i = .idle := by
  have h₀ : Reachable Next (fun _ _ _ => True)
    (new : Config (Fin 2) (Memory (Fin 2) ℕ) Place) new := .start
  have h₁ := h₀.move 0 (.push 5 (x := 1) rfl) trivial
  have h₂ := h₁.move 0 .getNode trivial
  have h₃ := h₂.move 0 .markNode trivial
  have h₄ := h₃.move 0 .getNodeAgain trivial
  have h₅ := h₄.move 0 (.getNext rfl) trivial
  have h₆ := h₅.move 0 .markNext trivial
  have h₇ := h₆.move 0 (.getNextAgain rfl) trivial
  have h₈ := h₇.move 0 .checkPush trivial
  have h₉ := h₈.move 0 (.pushLink rfl rfl) trivial
  have h₁₀ := h₉.move 0 (.pushSwing rfl) trivial
  have h₁₁ := h₁₀.move 0 .resetNext trivial
  have h₁₂ := h₁₁.move 0 .resetNode trivial
  have p₁ := h₁₂.move 1 .pop trivial
  have p₂ := p₁.move 1 .getNode trivial
  have p₃ := p₂.move 1 .markNode trivial
  have p₄ := p₃.move 1 .getNodeAgain trivial
  have p₅ := p₄.move 1 (.getNext rfl) trivial
  have p₆ := p₅.move 1 .markNext trivial
  have p₇ := p₆.move 1 (.getNextAgain rfl) trivial
  have p₈ := p₇.move 1 .checkPop trivial
  have p₉ := p₈.move 1 .popTail trivial
  have p₁₀ := p₉.move 1 (.popNext rfl) trivial
  have p₁₁ := p₁₀.move 1 (.popSwing rfl) trivial
  have p₁₂ := p₁₁.move 1 (.popMove rfl) trivial
  have p₁₃ := p₁₂.move 1 .retire trivial
  have p₁₄ := p₁₃.move 1 .resetNext trivial
  have p₁₅ := p₁₄.move 1 .resetNode trivial
  refine ⟨_, p₁₅, rfl, rfl, rfl, rfl, Set.eq_empty_iff_forall_notMem.mpr (Prod.forall.mpr ?_),
    Fin.forall_fin_two.mpr ⟨rfl, rfl⟩⟩
  refine Fin.forall_fin_two.mpr ⟨Fin.forall_fin_two.mpr ⟨?_, ?_⟩, Fin.forall_fin_two.mpr ⟨?_, ?_⟩⟩
  · exact fun hk => Option.some_ne_none 0 hk.1.1.symm
  · exact fun hk => Option.some_ne_none 0 hk.1.1.symm
  · exact fun hk => Option.some_ne_none 0 (hk.2 rfl).symm
  · exact fun hk => Nat.one_ne_zero (Option.some.inj hk.1.1)

/-- The run goes on: the node that was popped is freed, and its address is used again. -/
theorem run_reuse : ∃ c : Config (Fin 2) (Memory (Fin 2) ℕ) Place,
    Reachable Next (fun _ _ _ => True) new c ∧ c.shared.returned = [some 5] ∧
      c.shared.tail = 0 ∧ c.shared.heap 0 = some ⟨none, some 6⟩ ∧ ∀ i, c.pc i = .idle := by
  obtain ⟨⟨⟨head, tail, heap, hz, returned⟩, pc⟩, h, rfl, rfl, hcell, hwaits, hguards, hidle⟩ :=
    run_pop
  have q₁ := h.moveAt 0 (hidle 0) (.free (hwaits ▸ Set.mem_insert 0 ∅) hguards) trivial
  have q₂ := q₁.moveAt 0 (Config.move_pc_self _ _ _ _) (.push 6 (x := 0) rfl) trivial
  have q₃ := q₂.moveAt 0 (Config.move_pc_self _ _ _ _) .getNode trivial
  have q₄ := q₃.moveAt 0 (Config.move_pc_self _ _ _ _) .markNode trivial
  have q₅ := q₄.moveAt 0 (Config.move_pc_self _ _ _ _) .getNodeAgain trivial
  have q₆ := q₅.moveAt 0 (Config.move_pc_self _ _ _ _) (.getNext hcell) trivial
  have q₇ := q₆.moveAt 0 (Config.move_pc_self _ _ _ _) .markNext trivial
  have q₈ := q₇.moveAt 0 (Config.move_pc_self _ _ _ _) (.getNextAgain hcell) trivial
  have q₉ := q₈.moveAt 0 (Config.move_pc_self _ _ _ _) .checkPush trivial
  have q₁₀ := q₉.moveAt 0 (Config.move_pc_self _ _ _ _) (.pushLink hcell rfl) trivial
  have q₁₁ := q₁₀.moveAt 0 (Config.move_pc_self _ _ _ _) (.pushSwing rfl) trivial
  have q₁₂ := q₁₁.moveAt 0 (Config.move_pc_self _ _ _ _) .resetNext trivial
  have q₁₃ := q₁₂.moveAt 0 (Config.move_pc_self _ _ _ _) .resetNode trivial
  exact ⟨_, q₁₃, rfl, rfl, rfl, Fin.forall_fin_two.mpr ⟨rfl, hidle 1⟩⟩

section Sim

variable [DecidableEq ι] {c : Config ι (Memory ι V) Place}
  {a : Config ι (ConcurrentQueue.Memory V) ConcurrentQueue.Place} {g : Nodes} {owes : ι → Option ℕ}

omit [DecidableEq ι] in
/-- The nodes from `head_` on. -/
theorem Sim.chain (h : Sim c a g owes) (shape : ConcurrentQueue.Shape a.shared) {rest : List ℕ}
    (split : a.shared.popped ++ rest = a.shared.linked) :
    (∀ n ∈ a.shared.head :: rest, n < a.shared.nodes ∧ n ∉ g.gone) ∧
      Linked (fun x => (c.shared.heap x).bind Cell.next) (some c.shared.head)
        ((a.shared.head :: rest).map g.addr) none := by
  have hlive : ∀ n ∈ a.shared.head :: rest, n < a.shared.nodes ∧ n ∉ g.gone := fun n hn =>
    ⟨shape.allocated n ((mem_linked shape split).mpr (.inr hn)),
      h.mirrors.alive (not_passed_of_mem shape split hn)⟩
  have hrest : a.shared.linked.drop a.shared.popped.length = rest := by rw [← split, List.drop_left]
  have hlinked := (hrest ▸ shape.chain.drop shape.head).linked
  rw [h.mirrors.head]
  refine ⟨hlive, hlinked.map fun n hn => ?_⟩
  rw [h.mirrors.cell n (hlive n hn).1 (hlive n hn).2]
  rfl

/-- **The queue with addresses is the queue with numbers.**  For every run of the code, in which
the addresses of nodes are used again, there is a run of the queue whose nodes are all
different, which is in the same state: `pop` has returned the same values in the same order, and
from `head_` the pointers in memory lead through the nodes that were linked and not popped,
whose values they hold. -/
theorem follows_queue (reached : Reachable Next (fun _ _ _ => True) new c) :
    ∃ a : Config ι (ConcurrentQueue.Memory V) ConcurrentQueue.Place,
      Reachable ConcurrentQueue.Next (fun _ _ _ => True) ConcurrentQueue.new a ∧
      c.shared.returned = a.shared.returned.map Prod.snd ∧
      ∃ (addr : ℕ → ℕ) (rest : List ℕ), a.shared.popped ++ rest = a.shared.linked ∧
        Linked (fun x => (c.shared.heap x).bind Cell.next) (some c.shared.head)
          ((a.shared.head :: rest).map addr) none ∧
        ((a.shared.head :: rest).map addr).Nodup ∧ c.shared.tail = addr a.shared.tail ∧
        ∀ n ∈ rest, a.shared.given n ≠ none ∧
          (c.shared.heap (addr n)).map Cell.data = some (a.shared.given n) := by
  obtain ⟨a, hreached, g, owes, h⟩ := sim_of_reachable reached
  obtain ⟨hwhole, -⟩ := ConcurrentQueue.invariant_of_reachable hreached
  have hshape := hwhole.shape
  obtain ⟨rest, hrest⟩ := hshape.popped
  obtain ⟨hlive, hlinked⟩ := h.chain hshape hrest
  have hnodup := hshape.chain.nodup
  rw [linked_eq hshape hrest] at hnodup
  refine ⟨a, hreached, h.mirrors.returned, g.addr, rest, hrest, hlinked, ?_, h.mirrors.tail,
    fun n hn => ?_⟩
  · refine List.Nodup.map_on (fun n hn k hk heq => ?_) (List.nodup_append.mp hnodup).2.1
    exact h.mirrors.apart n (hlive n hn).1 k (hlive k hk).1 (hlive n hn).2 (hlive k hk).2 heq
  · have hmem : n ∈ a.shared.linked := hrest ▸ List.mem_append_right _ hn
    have hout : n ∉ a.shared.popped := by
      intro hpop
      have hnodup := (List.nodup_cons.mp hshape.chain.nodup).2
      rw [← hrest] at hnodup
      exact (List.nodup_append.mp hnodup).2.2 n hpop n hn rfl
    obtain ⟨hdata, hgiven⟩ := hwhole.waiting n hmem hout
    obtain ⟨hlt, halive⟩ := hlive n (List.mem_cons_of_mem _ hn)
    refine ⟨hgiven, ?_⟩
    rw [h.mirrors.cell n hlt halive, Option.map_some, hdata]

theorem follows_queue_reuse : ∃ c : Config (Fin 2) (Memory (Fin 2) ℕ) Place,
    c.shared.tail = 0 ∧ c.shared.heap 0 = some ⟨none, some 6⟩ ∧
      ∃ a : Config (Fin 2) (ConcurrentQueue.Memory ℕ) ConcurrentQueue.Place,
        a.shared.returned.map Prod.snd = [some 5] := by
  obtain ⟨c, h, hreturned, htail, hcell, -⟩ := run_reuse
  obtain ⟨a, -, hsame, -⟩ := follows_queue h
  exact ⟨c, htail, hcell, a, hsame.symm.trans hreturned⟩

/-- **No thread touches a node that was freed**, and every node that was popped is retired once.
In every run, the node that a step reads or writes is allocated; a node that a thread is about to
retire is allocated and not retired, and no other thread is about to retire it; and when all
threads are at rest, every allocated node is retired or reached from `head_`. -/
theorem nodes_alive (reached : Reachable Next (fun _ _ _ => True) new c) :
    (∀ i x, (c.pc i).touches = some x → c.shared.heap x ≠ none) ∧
      (∀ i x, c.pc i = .retire x → c.shared.heap x ≠ none ∧ x ∉ c.shared.hazards.waiting ∧
        ∀ j, c.pc j = .retire x → j = i) ∧
      ((∀ i, c.pc i = .idle) → ∃ nodes,
        Linked (fun x => (c.shared.heap x).bind Cell.next) (some c.shared.head) nodes none ∧
          ∀ x, c.shared.heap x ≠ none → x ∈ c.shared.hazards.waiting ∨ x ∈ nodes) := by
  obtain ⟨a, hreached, g, owes, h⟩ := sim_of_reachable reached
  obtain ⟨hwhole, -⟩ := ConcurrentQueue.invariant_of_reachable hreached
  have hshape := hwhole.shape
  refine ⟨fun i x htouch => ?_, fun i x hretire => ?_, fun hidle => ?_⟩
  · obtain ⟨k, n, hkept⟩ := (h.follows i).kept htouch
    rw [hkept.cell h.mirrors]
    exact Option.some_ne_none _
  · have howes : ∀ j, c.pc j = .retire x → ∃ n < a.shared.nodes, g.addr n = x ∧
        owes j = some n := by
      intro j hj
      have hfollows := h.follows j
      rw [hj] at hfollows
      exact hfollows.retires
    obtain ⟨n, hlt, rfl, ho⟩ := howes i hretire
    obtain ⟨hout, hpassed⟩ := h.debts.owed i n ho
    have halive : n ∉ g.gone := fun hgone => hout (h.mirrors.gone hgone)
    refine ⟨?_, h.mirrors.notMem_waiting hshape hlt hout, fun j hj => ?_⟩
    · rw [h.mirrors.cell n hlt halive]
      exact Option.some_ne_none _
    · obtain ⟨k, hk, haddr, ho'⟩ := howes j hj
      have hout' := (h.debts.owed j k ho').1
      obtain rfl := h.mirrors.apart k hk n hlt (fun hgone => hout' (h.mirrors.gone hgone)) halive
        haddr
      exact h.debts.one j i k ho' ho
  · obtain ⟨rest, hrest⟩ := hshape.popped
    refine ⟨_, (h.chain hshape hrest).2, fun x hx => ?_⟩
    obtain ⟨n, hn, halive, rfl⟩ := h.mirrors.used x hx
    have hatRest : ∀ i, a.pc i = .idle ∧ owes i = none := by
      intro i
      have hfollows := h.follows i
      rw [hidle i] at hfollows
      exact hfollows.rests
    have hmem : n ∈ 0 :: a.shared.linked := by
      refine ((placed_of_reachable hreached).made n hn).resolve_right ?_
      rintro ⟨i, hi⟩
      rw [(hatRest i).1] at hi
      exact Option.some_ne_none _ hi.symm
    rcases (mem_linked hshape hrest).mp hmem with hpassed | hmem
    · have hout : n ∈ g.out := by
        by_contra hout
        obtain ⟨i, hi⟩ := h.debts.all n hpassed hout
        rw [(hatRest i).2] at hi
        exact Option.some_ne_none _ hi.symm
      exact .inl ((h.mirrors.waiting _).mpr ⟨n, hout, halive, rfl⟩)
    · exact .inr (List.mem_map_of_mem hmem)

theorem nodes_alive_reuse : ∃ c : Config (Fin 2) (Memory (Fin 2) ℕ) Place,
    c.shared.returned = [some 5] ∧ ∃ nodes,
      Linked (fun x => (c.shared.heap x).bind Cell.next) (some c.shared.head) nodes none ∧
        ∀ x, c.shared.heap x ≠ none → x ∈ c.shared.hazards.waiting ∨ x ∈ nodes := by
  obtain ⟨c, h, hreturned, -, -, hidle⟩ := run_reuse
  exact ⟨c, hreturned, (nodes_alive h).2.2 hidle⟩

end Sim

end QueueMemory

end Lsmkv
