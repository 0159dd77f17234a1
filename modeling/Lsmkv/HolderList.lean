import Lsmkv.Lib.Interleaving
import Lsmkv.Lib.NodeChain
import Mathlib.Data.Finset.Basic

/-!
# The list of hazard pointers

Every thread keeps the pointers it works with in holders, and a thread that reclaims memory
collects the pointers of all holders (`load_hazptr_vals`) and frees only what is not among
them (`utils/hazard_ptr.h`).  A new holder is appended to a list in two steps: `push_back`
swings `tail_` to the new node, and then links the node from the one that was the tail.

Between the two steps the list is cut: whatever is appended behind is not found from `head_`
until the first `push_back` has made its store (`HolderList.freed_protected`).  As long as no
thread swings the tail while another has a store to make, a holder that `make_holder` has
returned is on the list, every collection that starts later finds its pointer, and the
pointer is not freed (`HolderList.holders_protect`).
-/

namespace Lsmkv

namespace HolderList

open Interleaving NodeChain

/-- The list.  Nodes are numbers, `head_` is node 0 for ever, and a new node has null pointers.
`holders` are the nodes of the holders that `make_holder` has returned, `freed` the pointers
that were freed. -/
structure Memory where
  tail : ℕ
  next : ℕ → Option ℕ
  ptr : ℕ → Option ℕ
  nodes : ℕ
  holders : Finset ℕ
  freed : List ℕ

/-- The store of `push_back` that links a node from the old tail; with it `push_back` and
`make_holder` return. -/
def Memory.link (m : Memory) (node tail : ℕ) : Memory :=
  { m with next := Function.update m.next tail (some node), holders := insert node m.holders }

/-- Where a thread is. -/
inductive Place
  | idle
  /-- `push_back`: the load of `tail_`, the compare-exchange, and the store to `next`. -/
  | loadTail (node : ℕ)
  | casTail (node tail : ℕ)
  | linkNext (node tail : ℕ)
  /-- `load_hazptr_vals` of a reclamation that has extracted the objects `untagged`. -/
  | loadHead (untagged : List ℕ)
  | loadPtr (untagged : List ℕ) (node : ℕ) (hs : List (Option ℕ))
  | loadNext (untagged : List ℕ) (node : ℕ) (hs : List (Option ℕ))
  /-- `match_reclaim`. -/
  | matchReclaim (untagged : List ℕ) (hs : List (Option ℕ))

/-- The loop of `load_hazptr_vals` goes on with a node, or ends. -/
def visit (untagged : List ℕ) (hs : List (Option ℕ)) : Option ℕ → Place
  | none => .matchReclaim untagged hs
  | some node => .loadPtr untagged node hs

/-- **One step of a thread.** -/
inductive Next {ι : Type*} (t : ι) : Memory → Place → Memory → Place → Prop
  /-- `make_holder` makes a holder, and `push_back` a node. -/
  | makeHolder {m : Memory} :
      Next t m .idle { m with nodes := m.nodes + 1 } (.loadTail m.nodes)
  | loadTail {m : Memory} {node : ℕ} : Next t m (.loadTail node) m (.casTail node m.tail)
  | casTail {m : Memory} {node tail : ℕ} (equal : m.tail = tail) :
      Next t m (.casTail node tail) { m with tail := node } (.linkNext node tail)
  /-- The compare-exchange fails, for a different value or for no reason. -/
  | casTailFails {m : Memory} {node tail : ℕ} :
      Next t m (.casTail node tail) m (.casTail node m.tail)
  | linkNext {m : Memory} {node tail : ℕ} :
      Next t m (.linkNext node tail) (m.link node tail) .idle
  /-- A thread stores a pointer, or null, in a holder. -/
  | protect {m : Memory} (node : ℕ) (value : Option ℕ) (made : node ∈ m.holders) :
      Next t m .idle { m with ptr := Function.update m.ptr node value } .idle
  /-- `do_reclamation` extracts retired objects. -/
  | extract {m : Memory} (untagged : List ℕ) : Next t m .idle m (.loadHead untagged)
  | loadHead {m : Memory} {untagged : List ℕ} :
      Next t m (.loadHead untagged) m (visit untagged [] (m.next 0))
  | loadPtr {m : Memory} {untagged : List ℕ} {node : ℕ} {hs : List (Option ℕ)} :
      Next t m (.loadPtr untagged node hs) m (.loadNext untagged node (m.ptr node :: hs))
  | loadNext {m : Memory} {untagged : List ℕ} {node : ℕ} {hs : List (Option ℕ)} :
      Next t m (.loadNext untagged node hs) m (visit untagged hs (m.next node))
  /-- What is not protected is freed; the rest goes back to the retired objects. -/
  | matchReclaim {m : Memory} {untagged : List ℕ} {hs : List (Option ℕ)} :
      Next t m (.matchReclaim untagged hs)
        { m with freed := m.freed ++ untagged.filter fun o => some o ∉ hs } .idle

/-- The list when it is made. -/
def new {ι : Type*} : Config ι Memory Place :=
  ⟨⟨0, fun _ => none, fun _ => none, 1, ∅, []⟩, fun _ => .idle⟩

/-- The node that a `push_back` has not linked. -/
def Place.own : Place → Option ℕ
  | .loadTail node | .casTail node _ | .linkNext node _ => some node
  | _ => none

/-- The store that a `push_back` has to make behind its compare-exchange. -/
def Place.linking : Place → Option (ℕ × ℕ)
  | .linkNext node tail => some (node, tail)
  | _ => none

/-- The thread is in a collection. -/
def Place.isLoading : Place → Bool
  | .loadPtr .. | .loadNext .. | .matchReclaim .. => true
  | _ => false

/-- No thread swings the tail while another one has a store to make. -/
def Apart {ι : Type*} (c : Config ι Memory Place) (i : ι) (c' : Config ι Memory Place) : Prop :=
  (c'.pc i).linking ≠ none → ∀ j, (c.pc j).linking = none

/-! ## What a step can do -/

theorem visit_own (untagged : List ℕ) (hs : List (Option ℕ)) (node : Option ℕ) :
    (visit untagged hs node).own = none ∧ (visit untagged hs node).linking = none := by
  cases node with
  | none => exact ⟨rfl, rfl⟩
  | some node => exact ⟨rfl, rfl⟩

/-- A step makes a node, swings the tail, links a node, or leaves the list alone. -/
theorem Next.cases {ι : Type*} {t : ι} {m m' : Memory} {p p' : Place} (h : Next t m p m' p') :
    (m' = { m with nodes := m.nodes + 1 } ∧ p = .idle ∧ p' = .loadTail m.nodes) ∨
    (∃ node, m' = { m with tail := node } ∧ p = .casTail node m.tail ∧
      p' = .linkNext node m.tail) ∨
    (∃ node tail, m' = m.link node tail ∧ p = .linkNext node tail ∧ p' = .idle) ∨
    (m'.tail = m.tail ∧ m'.next = m.next ∧ m'.nodes = m.nodes ∧ m'.holders = m.holders ∧
      p'.own = p.own ∧ p'.linking = p.linking) := by
  cases h with
  | makeHolder => exact .inl ⟨rfl, rfl, rfl⟩
  | casTail equal =>
      subst equal
      exact .inr (.inl ⟨_, rfl, rfl, rfl⟩)
  | linkNext => exact .inr (.inr (.inl ⟨_, _, rfl, rfl, rfl⟩))
  | loadHead | loadNext =>
      obtain ⟨hown, hlink⟩ := visit_own _ _ _
      exact .inr (.inr (.inr ⟨rfl, rfl, rfl, rfl, hown, hlink⟩))
  | _ => exact .inr (.inr (.inr ⟨rfl, rfl, rfl, rfl, rfl, rfl⟩))

/-! ## The invariant -/

section Invariant

variable {ι : Type*}

/-- **What holds of the list**: the nodes behind `head_` are the chain `l`, on which are all
holders that were returned; nodes that are not linked are no part of it; and `tail_` is its
end, or the one node that is about to be linked there. -/
structure Whole (c : Config ι Memory Place) (l : List ℕ) : Prop where
  chain : Chain c.shared.next 0 l
  holders : ∀ n ∈ c.shared.holders, n ∈ l
  allocated : ∀ n ∈ 0 :: l, n < c.shared.nodes
  fresh : ∀ n, c.shared.nodes ≤ n → c.shared.next n = none
  own : ∀ i n, (c.pc i).own = some n → n ∉ 0 :: l ∧ c.shared.next n = none ∧ n < c.shared.nodes
  distinct : ∀ i j n, (c.pc i).own = some n → (c.pc j).own = some n → i = j
  rests : (∀ i, (c.pc i).linking = none) →
    c.shared.tail ∈ 0 :: l ∧ c.shared.next c.shared.tail = none
  links : ∀ i node tail, (c.pc i).linking = some (node, tail) →
    c.shared.tail = node ∧ tail ∈ 0 :: l ∧ c.shared.next tail = none
  alone : ∀ i j, (c.pc i).linking ≠ none → (c.pc j).linking ≠ none → i = j

theorem whole_new : Whole (new : Config ι Memory Place) [] where
  chain := .nil rfl
  holders := by simp [new]
  allocated := by simp [new]
  fresh := by simp [new]
  own := by simp [new, Place.own]
  distinct := by simp [new, Place.own]
  rests := by simp [new]
  links := by simp [new, Place.linking]
  alone := by simp [new, Place.linking]

variable [DecidableEq ι] {c : Config ι Memory Place} {l : List ℕ} {i : ι} {m : Memory} {p : Place}

/-- A step that leaves the list alone. -/
theorem Whole.quiet (h : Whole c l) (tail : m.tail = c.shared.tail) (next : m.next = c.shared.next)
    (nodes : m.nodes = c.shared.nodes) (holders : m.holders = c.shared.holders)
    (own : p.own = (c.pc i).own) (linking : p.linking = (c.pc i).linking) :
    Whole (c.move i m p) l := by
  have hown := c.forall_move_pc (s := m) own
  have hlink := c.forall_move_pc (s := m) linking
  constructor
  · simpa only [Config.move_shared, next] using h.chain
  · simpa only [Config.move_shared, holders] using h.holders
  · simpa only [Config.move_shared, nodes] using h.allocated
  · simpa only [Config.move_shared, nodes, next] using h.fresh
  · simpa only [Config.move_shared, nodes, next, hown] using h.own
  · simpa only [hown] using h.distinct
  · simpa only [Config.move_shared, tail, next, hlink] using h.rests
  · simpa only [Config.move_shared, tail, next, hlink] using h.links
  · simpa only [hlink] using h.alone

/-- A new node belongs to its thread. -/
theorem Whole.makeHolder (h : Whole c l) (here : c.pc i = .idle) :
    Whole (c.move i { c.shared with nodes := c.shared.nodes + 1 } (.loadTail c.shared.nodes)) l := by
  have hlink := c.forall_move_pc (s := { c.shared with nodes := c.shared.nodes + 1 })
    (show (Place.loadTail c.shared.nodes).linking = (c.pc i).linking by rw [here]; rfl)
  have hold : ∀ j n, (c.pc j).own = some n → n < c.shared.nodes := fun j n hj => (h.own j n hj).2.2
  constructor
  · exact h.chain
  · exact h.holders
  · exact fun n hn => Nat.lt_succ_of_lt (h.allocated n hn)
  · exact fun n hn => h.fresh n (Nat.le_of_succ_le hn)
  · intro j n hj
    rcases Config.pc_of_move (Q := (Place.own · = some n)) hj with ⟨-, hn⟩ | ⟨-, hn⟩
    · obtain rfl : c.shared.nodes = n := Option.some.inj hn
      exact ⟨fun hmem => lt_irrefl _ (h.allocated _ hmem), h.fresh _ le_rfl, Nat.lt_succ_self _⟩
    · obtain ⟨hout, hnext, hlt⟩ := h.own j n hn
      exact ⟨hout, hnext, Nat.lt_succ_of_lt hlt⟩
  · intro j k n hj hk
    rcases Config.pc_of_move (Q := (Place.own · = some n)) hj with ⟨hji, hn⟩ | ⟨-, hj⟩
    · rcases Config.pc_of_move (Q := (Place.own · = some n)) hk with ⟨hki, -⟩ | ⟨-, hk⟩
      · exact hji.trans hki.symm
      · have := hold k n hk
        simp only [Place.own, Option.some.injEq] at hn
        omega
    · rcases Config.pc_of_move (Q := (Place.own · = some n)) hk with ⟨-, hn⟩ | ⟨-, hk⟩
      · have := hold j n hj
        simp only [Place.own, Option.some.injEq] at hn
        omega
      · exact h.distinct j k n hj hk
  · simpa only [Config.move_shared, hlink] using h.rests
  · simpa only [Config.move_shared, hlink] using h.links
  · simpa only [hlink] using h.alone

/-- **The tail is swung**, when nobody else has a store to make. -/
theorem Whole.casTail (h : Whole c l) {node : ℕ} (here : c.pc i = .casTail node c.shared.tail)
    (apart : ∀ j, (c.pc j).linking = none) :
    Whole (c.move i { c.shared with tail := node } (.linkNext node c.shared.tail)) l := by
  have hown := c.forall_move_pc (s := { c.shared with tail := node })
    (show (Place.linkNext node c.shared.tail).own = (c.pc i).own by rw [here]; rfl)
  have honly : ∀ j, ((c.move i { c.shared with tail := node }
      (.linkNext node c.shared.tail)).pc j).linking ≠ none → j = i := by
    intro j hj
    rcases Config.pc_of_move (Q := (Place.linking · ≠ none)) hj with ⟨hji, -⟩ | ⟨-, hj⟩
    · exact hji
    · exact absurd (apart j) hj
  constructor
  · exact h.chain
  · exact h.holders
  · exact h.allocated
  · exact h.fresh
  · simpa only [Config.move_shared, hown] using h.own
  · simpa only [hown] using h.distinct
  · intro hnone
    have := hnone i
    simp [Place.linking] at this
  · intro j a b hj
    obtain rfl : j = i := honly j (by simp [hj])
    simp only [Config.move_pc_self, Place.linking, Option.some.injEq, Prod.mk.injEq] at hj
    obtain ⟨rfl, rfl⟩ := hj
    exact ⟨rfl, h.rests apart⟩
  · exact fun j k hj hk => (honly j hj).trans (honly k hk).symm

/-- **The node is linked**, at the end of the chain. -/
theorem Whole.linkNext (h : Whole c l) {node tail : ℕ} (here : c.pc i = .linkNext node tail) :
    Whole (c.move i (c.shared.link node tail) .idle) (l ++ [node]) := by
  obtain ⟨htail, hmem, hnull⟩ := h.links i node tail (by rw [here]; rfl)
  obtain ⟨hout, hend, hlt⟩ := h.own i node (by rw [here]; rfl)
  -- the thread was the only one between the compare-and-swap and the link
  have hnone : ∀ j, ((c.move i (c.shared.link node tail) .idle).pc j).linking = none := by
    intro j
    by_contra hj
    rcases Config.pc_of_move (Q := (Place.linking · ≠ none)) hj with ⟨-, hj⟩ | ⟨hji, hj⟩
    · exact hj rfl
    · exact hji (h.alone j i hj (by simp [here, Place.linking]))
  -- one next pointer is written, that of the old end
  have hother : ∀ n, c.shared.next n = none → n ≠ tail →
      Function.update c.shared.next tail (some node) n = none := by
    intro n hn hne
    rw [Function.update_of_ne hne, hn]
  constructor
  · exact h.chain.append hmem hnull hout hend
  · intro n hn
    rcases Finset.mem_insert.mp hn with rfl | hn
    · simp
    · exact List.mem_append_left _ (h.holders n hn)
  · intro n hn
    rw [← List.cons_append, List.mem_append, List.mem_singleton] at hn
    rcases hn with hn | rfl
    · exact h.allocated n hn
    · exact hlt
  · intro n hn
    refine hother n (h.fresh n hn) ?_
    rintro rfl
    exact absurd (h.allocated n hmem) (not_lt.mpr hn)
  · intro j n hj
    rcases Config.pc_of_move (Q := (Place.own · = some n)) hj with ⟨-, hj'⟩ | ⟨hji, hj'⟩
    · simp [Place.own] at hj'
    · obtain ⟨hout', hend', hlt'⟩ := h.own j n hj'
      refine ⟨?_, hother n hend' fun heq => hout' (heq ▸ hmem), hlt'⟩
      rw [← List.cons_append, List.mem_append, List.mem_singleton, not_or]
      refine ⟨hout', ?_⟩
      rintro rfl
      exact hji (h.distinct j i n hj' (by rw [here]; rfl))
  · intro j k n hj hk
    rcases Config.pc_of_move (Q := (Place.own · = some n)) hj with ⟨-, hj⟩ | ⟨-, hj⟩
    · simp [Place.own] at hj
    · rcases Config.pc_of_move (Q := (Place.own · = some n)) hk with ⟨-, hk⟩ | ⟨-, hk⟩
      · simp [Place.own] at hk
      · exact h.distinct j k n hj hk
  · intro _
    refine ⟨?_, ?_⟩
    · simp [Memory.link, htail]
    · exact hother _ (htail ▸ hend) fun heq => hout (htail ▸ heq ▸ hmem)
  · intro j a b hj
    simp [hnone j] at hj
  · intro j k hj
    exact absurd (hnone j) hj

/-- **The list behind a step.** -/
theorem Whole.move (h : Whole c l) (moved : Next i c.shared (c.pc i) m p)
    (apart : Apart c i (c.move i m p)) : ∃ l', l <+: l' ∧ Whole (c.move i m p) l' := by
  rcases moved.cases with ⟨rfl, hp, rfl⟩ | ⟨node, rfl, hp, rfl⟩ | ⟨node, tail, rfl, hp, rfl⟩ |
    ⟨htail, hnext, hnodes, hholders, hown, hlink⟩
  · exact ⟨l, List.prefix_rfl, h.makeHolder hp⟩
  · exact ⟨l, List.prefix_rfl, h.casTail hp (apart (by simp [Place.linking]))⟩
  · exact ⟨l ++ [node], List.prefix_append _ _, h.linkNext hp⟩
  · exact ⟨l, List.prefix_rfl, h.quiet htail hnext hnodes hholders hown hlink⟩

theorem whole_of_reachable (h : Reachable Next Apart new c) : ∃ l, Whole c l := by
  induction h with
  | start => exact ⟨[], whole_new⟩
  | step _ apart taken ih =>
      obtain ⟨l, hl⟩ := ih
      obtain ⟨m, p, hmoved, rfl⟩ := taken
      obtain ⟨l', -, hl'⟩ := hl.move hmoved apart
      exact ⟨l', hl'⟩

/-! ## Collections -/

/-- A collection that is under way has the pointer `p` of node `n`, or will come to the node. -/
def Sees (next : ℕ → Option ℕ) (n p : ℕ) : Place → Prop
  | .loadPtr _ node hs => some p ∈ hs ∨ Reaches next node n
  | .loadNext _ node hs => some p ∈ hs ∨ ∃ y, next node = some y ∧ Reaches next y n
  | .matchReclaim _ hs => some p ∈ hs
  | _ => True

theorem sees_of_not_isLoading {next : ℕ → Option ℕ} {n q : ℕ} {p : Place}
    (h : p.isLoading = false) : Sees next n q p := by
  cases p <;> simp_all [Place.isLoading, Sees]

/-- Behind a link the collection goes on to the next node. -/
theorem sees_visit {next : ℕ → Option ℕ} {n q : ℕ} {untagged : List ℕ} {hs : List (Option ℕ)}
    {node : Option ℕ} (h : some q ∈ hs ∨ ∃ y, node = some y ∧ Reaches next y n) :
    Sees next n q (visit untagged hs node) := by
  rcases h with h | ⟨y, rfl, hy⟩
  · cases node with
    | none => exact h
    | some y => exact .inl h
  · exact .inr hy

/-- A store over a null pointer takes nothing away. -/
theorem Sees.mono {next : ℕ → Option ℕ} {n q tail : ℕ} {p : Place} (h : Sees next n q p)
    (null : next tail = none) (v : Option ℕ) : Sees (Function.update next tail v) n q p := by
  cases p with
  | loadPtr untagged node hs => exact h.imp_right fun hr => hr.mono null v
  | loadNext untagged node hs =>
      refine h.imp_right fun ⟨y, hy, hr⟩ => ⟨y, ?_, hr.mono null v⟩
      rwa [Function.update_of_ne]
      rintro rfl
      simp [null] at hy
  | matchReclaim untagged hs => exact h
  | _ => trivial

omit [DecidableEq ι] in
/-- A step of the collecting thread. -/
theorem Sees.own {n q : ℕ} (h : Sees c.shared.next n q (c.pc i)) (chain : Chain c.shared.next 0 l)
    (on : n ∈ l) (ptr : c.shared.ptr n = some q) (moved : Next i c.shared (c.pc i) m p) :
    Sees m.next n q p := by
  -- A node on the way to `n`, other than `n`, has a link that leads there.
  have hlink : ∀ x, x ≠ n → Reaches c.shared.next x n →
      ∃ y, c.shared.next x = some y ∧ Reaches c.shared.next y n := by
    intro x hne hx
    rcases Relation.ReflTransGen.cases_head hx with heq | ⟨y, hy, hr⟩
    · exact absurd heq hne
    · exact ⟨y, hy, hr⟩
  generalize hs : c.shared = s at *
  generalize hp : c.pc i = p₀ at *
  cases moved with
  | loadHead =>
      obtain ⟨k, hk⟩ := List.mem_iff_getElem?.mp (List.mem_cons_of_mem 0 on)
      have h0 : (0 : ℕ) ≠ n := fun heq => (List.nodup_cons.mp chain.nodup).1 (heq ▸ on)
      exact sees_visit (.inr (hlink 0 h0 (chain.reaches (Nat.zero_le k) rfl hk)))
  | @loadPtr untagged node hs =>
      rcases h with h | h
      · exact .inl (List.mem_cons_of_mem _ h)
      · by_cases hne : node = n
        · subst hne
          exact .inl (by simp [ptr])
        · exact .inr (hlink node hne h)
  | loadNext => exact sees_visit h
  | _ => trivial

/-- What a collection has seen stays, whoever makes a step. -/
theorem Sees.move {n q : ℕ} {r : ι} (h : Sees c.shared.next n q (c.pc r)) (whole : Whole c l)
    (on : n ∈ l) (ptr : c.shared.ptr n = some q) (moved : Next i c.shared (c.pc i) m p) :
    Sees m.next n q ((c.move i m p).pc r) := by
  by_cases hri : r = i
  · subst hri
    rw [Config.move_pc_self]
    exact h.own whole.chain on ptr moved
  · rw [Config.move_pc_of_ne c hri]
    rcases moved.cases with ⟨rfl, -, -⟩ | ⟨node, rfl, -, -⟩ | ⟨node, tail, rfl, hp, -⟩ |
      ⟨-, hnext, -⟩
    · exact h
    · exact h
    · exact h.mono (whole.links i node tail (by rw [hp]; rfl)).2.2 _
    · rwa [hnext]

/-- **What a collection has seen**, in a run in which the pointer of a node stays. -/
theorem sees_of_reachable {n q : ℕ} {c₀ : Config ι Memory Place} {r : ι} (whole : Whole c₀ l)
    (on : n ∈ l) (ptr : c₀.shared.ptr n = some q) (before : (c₀.pc r).isLoading = false)
    (h : Reachable Next (fun c i c' => Apart c i c' ∧ c'.shared.ptr n = some q) c₀ c) :
    ∃ l, Whole c l ∧ n ∈ l ∧ c.shared.ptr n = some q ∧ Sees c.shared.next n q (c.pc r) := by
  induction h with
  | start => exact ⟨l, whole, on, ptr, sees_of_not_isLoading before⟩
  | @step c c' i _ ok taken ih =>
      obtain ⟨l, hwhole, hon, hptr, hsees⟩ := ih
      obtain ⟨m, p, hmoved, rfl⟩ := taken
      obtain ⟨l', hpre, hwhole'⟩ := hwhole.move hmoved ok.1
      exact ⟨l', hwhole', hpre.subset hon, ok.2, hsees.move hwhole hon hptr hmoved⟩

/-- **Holders protect.**  In every run in which no thread swings the tail while another one has
its store to make: the node of a holder that `make_holder` has returned is reached from
`head_`; and a collection that starts later, while the holder keeps its pointer, finds the
pointer, so that the reclamation does not free it. -/
theorem holders_protect (reached : Reachable Next Apart new c) {n : ℕ}
    (made : n ∈ c.shared.holders) :
    Reaches c.shared.next 0 n ∧
    ∀ q r c', c.shared.ptr n = some q → (c.pc r).isLoading = false →
      Reachable Next (fun c i c' => Apart c i c' ∧ c'.shared.ptr n = some q) c c' →
      ∀ untagged hs, c'.pc r = .matchReclaim untagged hs →
        some q ∈ hs ∧ ∀ m p, Next r c'.shared (c'.pc r) m p →
          q ∈ m.freed → q ∈ c'.shared.freed := by
  obtain ⟨l, hl⟩ := whole_of_reachable reached
  have hon := hl.holders n made
  refine ⟨?_, fun q r c' hptr hbefore hrun untagged hs hhere => ?_⟩
  · obtain ⟨k, hk⟩ := List.mem_iff_getElem?.mp (List.mem_cons_of_mem 0 hon)
    exact hl.chain.reaches (Nat.zero_le k) rfl hk
  · obtain ⟨l', -, -, -, hsees⟩ := sees_of_reachable hl hon hptr hbefore hrun
    rw [hhere] at hsees ⊢
    refine ⟨hsees, fun m p hmoved hfreed => ?_⟩
    cases hmoved
    rcases List.mem_append.mp hfreed with hfreed | hfreed
    · exact hfreed
    · have hout := List.of_mem_filter hfreed
      simp only [decide_eq_true_eq] at hout
      exact absurd hsees hout

theorem apart_of_linking (h : p.linking = none) : Apart c i (c.move i m p) := by
  intro hne
  rw [Config.move_pc_self] at hne
  exact absurd h hne

end Invariant

/-- A thread makes a holder and protects pointer 7; another one extracts 7 and 8 and collects. -/
theorem holders_protect_one_holder :
    ∃ c c' : Config (Fin 2) Memory Place, Reachable Next Apart new c ∧ 1 ∈ c.shared.holders ∧
      Reachable Next (fun c i c' => Apart c i c' ∧ c'.shared.ptr 1 = some 7) c c' ∧
      ∃ hs, c'.pc 1 = .matchReclaim [7, 8] hs ∧ some 7 ∈ hs := by
  have h₀ : Reachable Next Apart (new : Config (Fin 2) Memory Place) new := .start
  have h₁ := h₀.move 0 .makeHolder (apart_of_linking rfl)
  have h₂ := h₁.move 0 .loadTail (apart_of_linking rfl)
  have h₃ := h₂.move 0 (.casTail rfl) (by
    unfold Apart
    decide)
  have h₄ := h₃.move 0 .linkNext (apart_of_linking rfl)
  have h₅ := h₄.move 0 (.protect 1 (some 7) (by decide)) (apart_of_linking rfl)
  obtain ⟨c, h, hmade, hidle, hnext₀, hnext₁, hptr⟩ : ∃ c : Config (Fin 2) Memory Place,
      Reachable Next Apart new c ∧ 1 ∈ c.shared.holders ∧ c.pc 1 = .idle ∧
      c.shared.next 0 = some 1 ∧ c.shared.next 1 = none ∧ c.shared.ptr 1 = some 7 :=
    ⟨_, h₅, by decide, rfl, rfl, rfl, rfl⟩
  have r₀ : Reachable Next (fun c i c' => Apart c i c' ∧ c'.shared.ptr 1 = some 7) c c := .start
  have r₁ := r₀.moveAt 1 hidle (.extract [7, 8]) ⟨apart_of_linking rfl, hptr⟩
  have r₂ := r₁.moveAt 1 (Config.move_pc_self _ _ _ _) .loadHead
    ⟨apart_of_linking (visit_own _ _ _).2, hptr⟩
  simp only [Config.move_shared, hnext₀, visit, Config.move_move] at r₂
  have r₃ := r₂.moveAt 1 (Config.move_pc_self _ _ _ _) .loadPtr ⟨apart_of_linking rfl, hptr⟩
  have r₄ := r₃.moveAt 1 (Config.move_pc_self _ _ _ _) .loadNext
    ⟨apart_of_linking (visit_own _ _ _).2, hptr⟩
  simp only [Config.move_shared, hnext₁, visit, Config.move_move] at r₄
  have hhere := Config.move_pc_self c 1 c.shared (.matchReclaim [7, 8] [c.shared.ptr 1])
  have hprotects := (holders_protect h hmade).2 7 1 _ hptr (by rw [hidle]; rfl) r₄ _ _ hhere
  exact ⟨c, _, h, hmade, r₄, _, hhere, hprotects.1⟩

/-- **A protected pointer is freed.**  Thread 0 has swung the tail to node 1 and not linked it;
thread 1 appends node 2 behind it, which `make_holder` returns, and protects pointer 7; thread 2
collects, finds no holder at all, and frees 7. -/
theorem freed_protected :
    ∃ c : Config (Fin 3) Memory Place, Reachable Next (fun _ _ _ => True) new c ∧
      2 ∈ c.shared.holders ∧ ¬ Reaches c.shared.next 0 2 ∧ c.shared.ptr 2 = some 7 ∧
      7 ∈ c.shared.freed := by
  have h₀ : Reachable Next (fun _ _ _ => True) (new : Config (Fin 3) Memory Place) new := .start
  have h₁ := h₀.move 0 .makeHolder trivial
  have h₂ := h₁.move 0 .loadTail trivial
  have h₃ := h₂.move 0 (.casTail rfl) trivial
  have h₄ := h₃.move 1 .makeHolder trivial
  have h₅ := h₄.move 1 .loadTail trivial
  have h₆ := h₅.move 1 (.casTail rfl) trivial
  have h₇ := h₆.move 1 .linkNext trivial
  have h₈ := h₇.move 1 (.protect 2 (some 7) (by decide)) trivial
  have h₉ := h₈.move 2 (.extract [7]) trivial
  have h₁₀ := h₉.move 2 .loadHead trivial
  have h₁₁ := h₁₀.move 2 .matchReclaim trivial
  refine ⟨_, h₁₁, by decide, fun hreach => ?_, rfl, by decide⟩
  rcases Relation.ReflTransGen.cases_head hreach with heq | ⟨y, hy, -⟩
  · exact absurd heq (by decide)
  · exact absurd (hy.symm.trans rfl : some y = none) (by simp)

end HolderList

end Lsmkv
