import Lsmkv.HolderList
import Lsmkv.Lib.Custody
import Lsmkv.Lib.HazardPointers
import Lsmkv.Lib.Linked
import Mathlib.Algebra.BigOperators.Fin
import Mathlib.Data.Fintype.Sum

/-!
# Retired objects

A thread that has taken an object out of a shared structure gives it to `retire`
(`utils/hazard_ptr.h`), which puts it in a node on one of eight lists and counts it.  Whoever
finds that a thousand objects have been counted takes all lists, loads the pointers of all
holders, frees the objects that are not among them, and puts the others back on the first list.

The lists are heads to which nodes are pushed by compare-exchange, and from which all nodes are
taken at once.  In the hands of a thread the nodes are moved from list to list through the same
`next_` pointers.  Every node is on one list, or in the hands of one thread
(`Reclaimer.Whole`), and what a place says of the nodes in hand is `Reclaimer.Holds`.

The addresses of nodes and objects are used again once they are free.  A compare-exchange on a
head may so succeed on a node that is not the one that was loaded, and this is harmless, because
it is the node that the new one points to.

A holder is the number of its node on the list of `Lsmkv.HolderList`, whose steps are part of
those of the reclaimer (`Reclaimer.Next.list`).  That a collection finds the pointers that guard
its objects (`Reclaimer.Aware`), so that these are not freed (`Reclaimer.protected_kept`), holds of
runs in which no thread swings the tail of that list while another one has a store to make
(`Reclaimer.Apart`); what is said of the nodes holds of all runs.
-/

namespace Lsmkv

namespace Reclaimer

open Interleaving NodeChain HazardPointers

/-! ## Lists in the hands of a thread -/

/-- `linked_list`. -/
structure LinkedList where
  head : Option ℕ
  tail : Option ℕ
  size : ℕ

namespace LinkedList

def new : LinkedList := ⟨none, none, 0⟩

/-- `set_next` of a node that is not null. -/
def setNext (next : ℕ → Option ℕ) (node : Option ℕ) (value : Option ℕ) : ℕ → Option ℕ :=
  match node with
  | none => next
  | some x => Function.update next x value

def push (l : LinkedList) (next : ℕ → Option ℕ) (node : ℕ) : (ℕ → Option ℕ) × LinkedList :=
  let next := Function.update next node none
  match l.tail with
  | some _ => (setNext next l.tail (some node), ⟨l.head, some node, l.size + 1⟩)
  | none => (next, ⟨some node, some node, l.size + 1⟩)

/-- The other list is empty behind it. -/
def splice (l l' : LinkedList) (next : ℕ → Option ℕ) : (ℕ → Option ℕ) × LinkedList :=
  match l'.head with
  | none => (next, l)
  | some _ =>
      match l.head with
      | none => (next, l')
      | some _ => (setNext next l.tail l'.head, ⟨l.head, l'.tail, l.size + l'.size⟩)

/-- The nodes of a list. -/
structure Is (next : ℕ → Option ℕ) (l : LinkedList) (nodes : List ℕ) : Prop where
  linked : Linked next l.head nodes none
  tail : l.tail = nodes.getLast?
  size : l.size = nodes.length

variable {next next' : ℕ → Option ℕ} {l l' : LinkedList} {nodes nodes' : List ℕ} {node : ℕ}

theorem Is.new (next : ℕ → Option ℕ) : Is next LinkedList.new [] := ⟨rfl, rfl, rfl⟩

theorem Is.congr (h : Is next l nodes) (same : ∀ x ∈ nodes, next' x = next x) :
    Is next' l nodes :=
  ⟨h.linked.congr same, h.tail, h.size⟩

theorem Is.eq_nil (h : Is next l nodes) (null : l.head = none) : nodes = [] := by
  have hlinked := h.linked
  rw [null] at hlinked
  exact hlinked.eq_nil

/-- A list that is not empty, by its last node. -/
theorem Is.eq_append (h : Is next l nodes) (first : l.head = some node) :
    ∃ rest last, nodes = rest ++ [last] ∧ l.tail = some last := by
  rcases List.eq_nil_or_concat nodes with hnil | ⟨rest, last, rfl⟩
  · have hlinked := h.linked
    rw [hnil, first] at hlinked
    exact absurd hlinked (Option.some_ne_none node)
  · exact ⟨rest, last, by simp, by simp [h.tail]⟩

/-- **`push` appends a node.** -/
theorem Is.push (h : Is next l nodes) (nodup : nodes.Nodup) (out : node ∉ nodes) :
    Is (l.push next node).1 (l.push next node).2 (nodes ++ [node]) ∧
      ∀ x, x ≠ node → x ∉ nodes → (l.push next node).1 x = next x := by
  have hnext : ∀ x ∈ nodes, Function.update next node none x = next x := fun x hx =>
    Function.update_of_ne (ne_of_mem_of_not_mem hx out) _ _
  rcases List.eq_nil_or_concat nodes with rfl | ⟨rest, last, rfl⟩
  · have htail : l.tail = none := h.tail
    have hsize : l.size = 0 := h.size
    simp only [LinkedList.push, htail, hsize]
    refine ⟨⟨⟨rfl, Function.update_self _ _ _⟩, rfl, rfl⟩, fun x hne _ => ?_⟩
    exact Function.update_of_ne hne _ _
  · rw [List.concat_eq_append] at *
    have htail : l.tail = some last := by simp [h.tail]
    have hlast : last ≠ node := fun heq => out (by simp [heq])
    have hlinked := (h.linked.congr hnext).update_last nodup (some node)
    have hnode : Function.update (Function.update next node none) last (some node) node = none := by
      rw [Function.update_of_ne hlast.symm, Function.update_self]
    simp only [LinkedList.push, htail, setNext]
    refine ⟨⟨hlinked.append ⟨rfl, hnode⟩, by simp, by simp [h.size]⟩, fun x hne hx => ?_⟩
    rw [Function.update_of_ne (fun heq => hx (by simp [heq])), Function.update_of_ne hne]

/-- **`splice` appends a list.** -/
theorem Is.splice (h : Is next l nodes) (h' : Is next l' nodes') (nodup : (nodes ++ nodes').Nodup) :
    Is (l.splice l' next).1 (l.splice l' next).2 (nodes ++ nodes') ∧
      ∀ x ∉ nodes, (l.splice l' next).1 x = next x := by
  rcases hhead' : l'.head with _ | first'
  · obtain rfl := h'.eq_nil hhead'
    simp only [LinkedList.splice, hhead', List.append_nil]
    exact ⟨h, fun _ _ => trivial⟩
  · rcases hhead : l.head with _ | first
    · obtain rfl := h.eq_nil hhead
      simp only [LinkedList.splice, hhead', hhead, List.nil_append]
      exact ⟨h', fun _ _ => trivial⟩
    · obtain ⟨rest, last, rfl, htail⟩ := h.eq_append hhead
      obtain ⟨hnodup, -, hdisjoint⟩ := List.nodup_append.mp nodup
      obtain ⟨rest', last', hnodes', htail'⟩ := h'.eq_append hhead'
      have hother : ∀ x ∈ nodes', Function.update next last l'.head x = next x := fun x hx =>
        Function.update_of_ne (hdisjoint last (by simp) x hx).symm _ _
      have hlinked := (h.linked.update_last hnodup l'.head).append (h'.linked.congr hother)
      rw [hhead, hhead'] at hlinked
      have hsize : l.size + l'.size = (rest ++ [last] ++ nodes').length := by
        rw [h.size, h'.size, ← List.length_append]
      simp only [LinkedList.splice, hhead', hhead, htail, setNext]
      refine ⟨⟨hlinked, ?_, hsize⟩, fun x hx => ?_⟩
      · rw [htail', hnodes', ← List.append_assoc, List.getLast?_concat]
      · exact Function.update_of_ne (fun heq => hx (by simp [heq])) _ _

end LinkedList

/-! ## The steps -/

abbrev kNumShards : ℕ := 8

def kShardMask : ℕ := kNumShards - 1

/-- The list that a node is pushed on. -/
def shardOf (ptr : ℕ) : Fin kNumShards :=
  ⟨(ptr >>> 8) &&& kShardMask, Nat.and_lt_two_pow (n := 3) _ (by decide)⟩

/-- The reclaimer.  `cell` is what is allocated: the object of a node.  `tail`, `nextHolder`,
`ptr`, `nodes` and `holders` are the list of the holders.  The rest says what has happened: the
objects that are `waiting` to be freed and which holders guard them, and the objects that were
retired and freed. -/
structure Memory where
  head : Fin kNumShards → Option ℕ
  next : ℕ → Option ℕ
  cell : ℕ → Option ℕ
  count : ℤ
  tail : ℕ
  nextHolder : ℕ → Option ℕ
  ptr : ℕ → Option ℕ
  nodes : ℕ
  holders : Finset ℕ
  waiting : Set ℕ
  guards : ℕ → Set ℕ
  retired : List ℕ
  freed : List ℕ

/-- The variables of `do_reclamation` and `match_reclaim`: what is left of `untagged`, the
pointers of the holders, and the nodes that are not reclaimed. -/
structure Work where
  rcount : ℤ
  untagged : List (Option ℕ)
  hs : List (Option ℕ)
  notReclaimed : LinkedList
  count : ℤ
  done : Bool

/-- The next step of a thread. -/
inductive Place
  | idle
  /-- `shared_head_only_list::push`: the load of the head, `set_next`, the compare-exchange. -/
  | pushLoad (node : ℕ)
  | pushNext (node : ℕ) (oldval : Option ℕ)
  | pushCas (node : ℕ) (oldval : Option ℕ)
  /-- `add_count(1)`. -/
  | addOne
  /-- `check_count_threshold`. -/
  | checkLoad (done : Bool)
  | checkCas (done : Bool) (rcount : ℤ)
  /-- `extract_retired_objects` and `load_hazptr_vals`. -/
  | extract (rcount : ℤ) (untagged : List (Option ℕ))
  | loadHead (rcount : ℤ) (untagged : List (Option ℕ))
  | loadPtr (rcount : ℤ) (untagged : List (Option ℕ)) (node : ℕ) (hs : List (Option ℕ))
  | loadNext (rcount : ℤ) (untagged : List (Option ℕ)) (node : ℕ) (hs : List (Option ℕ))
  | matchReclaim (rcount : ℤ) (untagged : List (Option ℕ)) (hs : List (Option ℕ))
  /-- `match_reclaim` of one list: `list_match_condition`, `reclaim_obj`, `retired_list_empty`,
  and `splice`. -/
  | matching (w : Work) (obj : Option ℕ) (matched noMatch : LinkedList)
  | reclaimObj (w : Work) (obj : Option ℕ) (matched : LinkedList)
  | emptyTest (w : Work) (s : ℕ) (matched : LinkedList)
  | splice (w : Work) (matched : LinkedList)
  /-- `push_list` of what is not reclaimed, on the first list. -/
  | listLoad (w : Work)
  | listNext (w : Work) (oldval : Option ℕ)
  | listCas (w : Work) (oldval : Option ℕ)
  | addCount (rcount : ℤ) (done : Bool)
  /-- `push_back` of a new holder. -/
  | loadTail (node : ℕ)
  | casTail (node tail : ℕ)
  | linkNext (node tail : ℕ)

/-- `check_count_threshold` has returned 0: the loop ends, or starts again. -/
def behindCheck (done : Bool) : Place := if done then .idle else .extract 0 []

/-- The loop of `check_count_threshold`. -/
def checked (count : ℤ) (done : Bool) : Place :=
  if 1000 ≤ count then .checkCas done count else behindCheck done

/-- What is not reclaimed is counted again. -/
def addBack (rcount : ℤ) (done : Bool) : Place :=
  if rcount = 0 then .checkLoad done else .addCount rcount done

/-- The loop of `load_hazptr_vals`. -/
def visit (rcount : ℤ) (untagged hs : List (Option ℕ)) : Option ℕ → Place
  | none => .matchReclaim rcount untagged hs
  | some node => .loadPtr rcount untagged node hs

/-- The loop of `match_reclaim`. -/
def nextShard (w : Work) : Place :=
  match w.untagged with
  | [] => .listLoad w
  | obj :: untagged => .matching { w with untagged := untagged } obj .new .new

namespace Memory

variable (m : Memory)

/-- The list of the holders. -/
def holderList : HolderList.Memory := ⟨m.tail, m.nextHolder, m.ptr, m.nodes, m.holders, []⟩

/-- The holders as slots. -/
def hazards : Hazards ℕ ℕ := ⟨m.ptr, m.waiting, m.guards⟩

/-- `retire` makes a node. -/
def make (node o : ℕ) : Memory :=
  { m with cell := Function.update m.cell node (some o)
           next := Function.update m.next node none
           waiting := (m.hazards.retire o).waiting
           guards := (m.hazards.retire o).guards
           retired := o :: m.retired }

/-- A node is deleted, with its object. -/
def delete (node o : ℕ) : Memory :=
  { m with cell := Function.update m.cell node none
           waiting := (m.hazards.free o).waiting
           freed := o :: m.freed }

/-- A holder is written. -/
def store (holder : ℕ) (value : Option ℕ) : Memory :=
  { m with ptr := Function.update m.ptr holder value
           guards := (m.hazards.store holder value).guards }

/-- A head is set. -/
def setHead (s : Fin kNumShards) (value : Option ℕ) : Memory :=
  { m with head := Function.update m.head s value }

variable {m}

theorem setHead_head_self (s : Fin kNumShards) (value : Option ℕ) :
    (m.setHead s value).head s = value := Function.update_self _ _ _

theorem setHead_head_of_ne {s s' : Fin kNumShards} (ne : s' ≠ s) (value : Option ℕ) :
    (m.setHead s value).head s' = m.head s' := Function.update_of_ne ne _ _

theorem delete_cell_of_ne {node x : ℕ} (ne : x ≠ node) (o : ℕ) :
    (m.delete node o).cell x = m.cell x := Function.update_of_ne ne _ _

end Memory

/-- **One step of a thread.**  Weak compare-exchanges may fail for no reason.  A caller retires
what is not retired already, and a node is allocated wherever nothing is. -/
inductive Next {ι : Type*} (t : ι) : Memory → Place → Memory → Place → Prop
  | retire {m : Memory} (o : ℕ) {node : ℕ} (once : o ∉ m.waiting)
      (free : m.cell node = none) : Next t m .idle (m.make node o) (.pushLoad node)
  | pushLoad {m : Memory} {node : ℕ} :
      Next t m (.pushLoad node) m (.pushNext node (m.head (shardOf node)))
  | pushNext {m : Memory} {node : ℕ} {oldval : Option ℕ} :
      Next t m (.pushNext node oldval) { m with next := Function.update m.next node oldval }
        (.pushCas node oldval)
  | pushCas {m : Memory} {node : ℕ} {oldval : Option ℕ} (equal : m.head (shardOf node) = oldval) :
      Next t m (.pushCas node oldval) (m.setHead (shardOf node) (some node)) .addOne
  | pushCasFails {m : Memory} {node : ℕ} {oldval : Option ℕ} :
      Next t m (.pushCas node oldval) m (.pushNext node (m.head (shardOf node)))
  | addOne {m : Memory} : Next t m .addOne { m with count := m.count + 1 } (.checkLoad true)
  | checkLoad {m : Memory} {done : Bool} :
      Next t m (.checkLoad done) m (checked m.count done)
  | checkCas {m : Memory} {done : Bool} :
      Next t m (.checkCas done m.count) { m with count := 0 } (.extract m.count [])
  | checkCasFails {m : Memory} {done : Bool} {rcount : ℤ} (different : m.count ≠ rcount) :
      Next t m (.checkCas done rcount) m (checked m.count done)
  | reclaim {m : Memory} : Next t m .idle m (.extract 0 [])
  /-- `pop_all`. -/
  | extract {m : Memory} {rcount : ℤ} {untagged : List (Option ℕ)}
      (lt : untagged.length < kNumShards) :
      Next t m (.extract rcount untagged) (m.setHead ⟨untagged.length, lt⟩ none)
        (.extract rcount (untagged ++ [m.head ⟨untagged.length, lt⟩]))
  | extracted {m : Memory} {rcount : ℤ} {untagged : List (Option ℕ)}
      (all : untagged.length = kNumShards) :
      Next t m (.extract rcount untagged) m
        (if ∀ obj ∈ untagged, obj = none then addBack rcount true
          else .loadHead rcount untagged)
  | loadHead {m : Memory} {rcount : ℤ} {untagged : List (Option ℕ)} :
      Next t m (.loadHead rcount untagged) m (visit rcount untagged [] (m.nextHolder 0))
  | loadPtr {m : Memory} {rcount : ℤ} {untagged : List (Option ℕ)} {node : ℕ}
      {hs : List (Option ℕ)} :
      Next t m (.loadPtr rcount untagged node hs) m
        (.loadNext rcount untagged node (m.ptr node :: hs))
  | loadNext {m : Memory} {rcount : ℤ} {untagged : List (Option ℕ)} {node : ℕ}
      {hs : List (Option ℕ)} :
      Next t m (.loadNext rcount untagged node hs) m
        (visit rcount untagged hs (m.nextHolder node))
  | matchReclaim {m : Memory} {rcount : ℤ} {untagged hs : List (Option ℕ)} :
      Next t m (.matchReclaim rcount untagged hs) m
        (nextShard ⟨rcount, untagged, hs, .new, 0, true⟩)
  | found {m : Memory} {w : Work} {node o : ℕ} {matched noMatch : LinkedList}
      (object : m.cell node = some o) (held : some o ∈ w.hs) :
      Next t m (.matching w (some node) matched noMatch)
        { m with next := (matched.push m.next node).1 }
        (.matching w (m.next node) (matched.push m.next node).2 noMatch)
  | notFound {m : Memory} {w : Work} {node o : ℕ} {matched noMatch : LinkedList}
      (object : m.cell node = some o) (free : some o ∉ w.hs) :
      Next t m (.matching w (some node) matched noMatch)
        { m with next := (noMatch.push m.next node).1 }
        (.matching w (m.next node) matched (noMatch.push m.next node).2)
  | allMatched {m : Memory} {w : Work} {matched noMatch : LinkedList} :
      Next t m (.matching w none matched noMatch) m
        (.reclaimObj { w with count := w.count + noMatch.size } noMatch.head matched)
  | reclaimObj {m : Memory} {w : Work} {node o : ℕ} {matched : LinkedList}
      (object : m.cell node = some o) :
      Next t m (.reclaimObj w (some node) matched) (m.delete node o)
        (.reclaimObj w (m.next node) matched)
  | reclaimed {m : Memory} {w : Work} {matched : LinkedList} :
      Next t m (.reclaimObj w none matched) m (.emptyTest w 0 matched)
  | emptyTest {m : Memory} {w : Work} {s : ℕ} {matched : LinkedList} (lt : s < kNumShards) :
      Next t m (.emptyTest w s matched) m
        (if m.head ⟨s, lt⟩ = none then .emptyTest w (s + 1) matched
          else .splice { w with done := false } matched)
  | allEmpty {m : Memory} {w : Work} {s : ℕ} {matched : LinkedList} (all : kNumShards ≤ s) :
      Next t m (.emptyTest w s matched) m (.splice w matched)
  | splice {m : Memory} {w : Work} {matched : LinkedList} :
      Next t m (.splice w matched) { m with next := (w.notReclaimed.splice matched m.next).1 }
        (nextShard { w with notReclaimed := (w.notReclaimed.splice matched m.next).2 })
  | listEmpty {m : Memory} {w : Work} (empty : w.notReclaimed.head = none) :
      Next t m (.listLoad w) m (addBack (w.rcount - w.count) w.done)
  | listLoad {m : Memory} {w : Work} {node : ℕ} (first : w.notReclaimed.head = some node) :
      Next t m (.listLoad w) m (.listNext w (m.head 0))
  | listNext {m : Memory} {w : Work} {oldval : Option ℕ} :
      Next t m (.listNext w oldval)
        { m with next := LinkedList.setNext m.next w.notReclaimed.tail oldval }
        (.listCas w oldval)
  | listCas {m : Memory} {w : Work} {oldval : Option ℕ} (equal : m.head 0 = oldval) :
      Next t m (.listCas w oldval) (m.setHead 0 w.notReclaimed.head)
        (addBack (w.rcount - w.count) w.done)
  | listCasFails {m : Memory} {w : Work} {oldval : Option ℕ} :
      Next t m (.listCas w oldval) m (.listNext w (m.head 0))
  | addCount {m : Memory} {rcount : ℤ} {done : Bool} :
      Next t m (.addCount rcount done) { m with count := m.count + rcount } (.checkLoad done)
  /-- `make_holder`, with `push_back`. -/
  | makeHolder {m : Memory} : Next t m .idle { m with nodes := m.nodes + 1 } (.loadTail m.nodes)
  | loadTail {m : Memory} {node : ℕ} : Next t m (.loadTail node) m (.casTail node m.tail)
  | casTail {m : Memory} {node tail : ℕ} (equal : m.tail = tail) :
      Next t m (.casTail node tail) { m with tail := node } (.linkNext node tail)
  | casTailFails {m : Memory} {node tail : ℕ} :
      Next t m (.casTail node tail) m (.casTail node m.tail)
  | linkNext {m : Memory} {node tail : ℕ} :
      Next t m (.linkNext node tail)
        { m with nextHolder := Function.update m.nextHolder tail (some node)
                 holders := insert node m.holders } .idle
  /-- A holder that `make_holder` has returned is written. -/
  | protect {m : Memory} (holder : ℕ) (value : Option ℕ) (made : holder ∈ m.holders) :
      Next t m .idle (m.store holder value) .idle

/-- The reclaimer when it is made. -/
def Memory.new : Memory where
  head _ := none
  next _ := none
  cell _ := none
  count := 0
  tail := 0
  nextHolder _ := none
  ptr _ := none
  nodes := 1
  holders := ∅
  waiting := ∅
  guards _ := ∅
  retired := []
  freed := []

def new {ι : Type*} : Config ι Memory Place := ⟨.new, fun _ => .idle⟩

/-! ## The list of the holders -/

/-- Where a thread is on the list of the holders. -/
def Place.list : Place → HolderList.Place
  | .loadTail node => .loadTail node
  | .casTail node tail => .casTail node tail
  | .linkNext node tail => .linkNext node tail
  | .loadHead _ _ => .loadHead []
  | .loadPtr _ _ node hs => .loadPtr [] node hs
  | .loadNext _ _ node hs => .loadNext [] node hs
  | .matchReclaim _ _ hs => .matchReclaim [] hs
  | .matching w _ _ _ | .reclaimObj w _ _ | .emptyTest w _ _ | .splice w _ => .matchReclaim [] w.hs
  | _ => .idle

/-- The list of the holders, and where the threads are on it. -/
abbrev list {ι : Type*} (c : Config ι Memory Place) : Config ι HolderList.Memory HolderList.Place :=
  c.map Memory.holderList Place.list

/-- No thread swings the tail of the list while another one has a store to make. -/
def Apart {ι : Type*} (c : Config ι Memory Place) (i : ι) (c' : Config ι Memory Place) : Prop :=
  HolderList.Apart (list c) i (list c')

theorem list_checked (count : ℤ) (done : Bool) : (checked count done).list = .idle := by
  unfold checked behindCheck
  split
  · rfl
  · split <;> rfl

theorem list_addBack (rcount : ℤ) (done : Bool) : (addBack rcount done).list = .idle := by
  unfold addBack
  split <;> rfl

theorem list_visit (rcount : ℤ) (untagged hs : List (Option ℕ)) (node : Option ℕ) :
    (visit rcount untagged hs node).list = HolderList.visit [] hs node := by
  cases node <;> rfl

/-- Behind a list, the thread matches the next one or is done with the pointers. -/
theorem list_nextShard (w : Work) :
    (nextShard w).list = .matchReclaim [] w.hs ∨ (nextShard w).list = .idle := by
  unfold nextShard
  split
  · exact .inr rfl
  · exact .inl rfl

/-- **A step of the reclaimer is one of the list of the holders**, or leaves it alone. -/
theorem Next.list {ι : Type*} {t : ι} {m m' : Memory} {p p' : Place} (h : Next t m p m' p') :
    HolderList.Next t m.holderList p.list m'.holderList p'.list ∨
      (m'.holderList = m.holderList ∧ p'.list = p.list) := by
  cases h with
  | checkLoad | checkCasFails => exact .inr ⟨rfl, list_checked _ _⟩
  | extracted all =>
      split
      · exact .inr ⟨rfl, list_addBack _ _⟩
      · exact .inl (.extract [])
  | loadHead | loadNext =>
      rw [list_visit]
      exact .inl (by constructor)
  | loadPtr => exact .inl .loadPtr
  | matchReclaim | splice =>
      rcases list_nextShard _ with heq | heq
      · exact .inr ⟨rfl, heq⟩
      · rw [heq]
        exact .inl .matchReclaim
  | emptyTest lt =>
      split
      · exact .inr ⟨rfl, rfl⟩
      · exact .inr ⟨rfl, rfl⟩
  | listEmpty | listCas => exact .inr ⟨rfl, list_addBack _ _⟩
  | makeHolder => exact .inl .makeHolder
  | loadTail => exact .inl .loadTail
  | casTail equal => exact .inl (.casTail equal)
  | casTailFails => exact .inl .casTailFails
  | linkNext => exact .inl .linkNext
  | protect holder value made => exact .inl (.protect holder value made)
  | _ => exact .inr ⟨rfl, rfl⟩

/-! ## The nodes -/

/-- **The ledger of the nodes** that exist: these are the allocated ones, and what was retired is
what was freed and the objects of these nodes, which are different. -/
structure Ledger (m : Memory) (nodes : Multiset ℕ) : Prop where
  nodup : nodes.Nodup
  live : ∀ x, x ∈ nodes ↔ m.cell x ≠ none
  objects : (m.retired : Multiset ℕ) = m.freed + nodes.filterMap m.cell
  once : (nodes.filterMap m.cell).Nodup
  waiting : ∀ o, o ∈ m.waiting ↔ o ∈ nodes.filterMap m.cell
  unmade : ∀ k ∉ m.holders, m.ptr k = none
  sound : m.hazards.Sound

namespace Ledger

variable {m m' : Memory} {nodes : Multiset ℕ} {node o : ℕ}

/-- A step that is not about nodes. -/
theorem congr (h : Ledger m nodes) (cell : m'.cell = m.cell) (retired : m'.retired = m.retired)
    (freed : m'.freed = m.freed) (hazards : m'.hazards = m.hazards)
    (holders : m.holders ⊆ m'.holders) : Ledger m' nodes := by
  obtain ⟨hnodup, hlive, hobjects, honce, hwaiting, hunmade, hsound⟩ := h
  have hptr : m'.ptr = m.ptr := congrArg Hazards.slot hazards
  have hwaits : m'.waiting = m.waiting := congrArg Hazards.waiting hazards
  constructor
  · exact hnodup
  · rwa [cell]
  · rwa [cell, retired, freed]
  · rwa [cell]
  · rwa [cell, hwaits]
  · rw [hptr]
    exact fun k hk => hunmade k fun hmem => hk (holders hmem)
  · rwa [hazards]

/-- The objects do not depend on what is not a node. -/
theorem filterMap_update (out : node ∉ nodes) (value : Option ℕ) :
    nodes.filterMap (Function.update m.cell node value) = nodes.filterMap m.cell := by
  induction nodes using Multiset.induction_on with
  | empty => rfl
  | cons x nodes ih =>
      obtain ⟨hne, hout⟩ := not_or.mp (mt Multiset.mem_cons.mpr out)
      rw [Multiset.filterMap_cons, Multiset.filterMap_cons, Function.update_of_ne (Ne.symm hne),
        ih hout]

/-- **A node is made** for an object. -/
theorem make (h : Ledger m nodes) (once : o ∉ m.waiting) (free : m.cell node = none) :
    Ledger (m.make node o) (node ::ₘ nodes) := by
  have hout : node ∉ nodes := fun hmem => (h.live node).mp hmem free
  have hobjects : (node ::ₘ nodes).filterMap (m.make node o).cell
      = o ::ₘ nodes.filterMap m.cell := by
    have hnode : (m.make node o).cell node = some o := Function.update_self _ _ _
    rw [Multiset.filterMap_cons_some _ _ _ hnode, Memory.make, filterMap_update hout]
  constructor
  · exact Multiset.nodup_cons.mpr ⟨hout, h.nodup⟩
  · intro x
    by_cases hx : x = node
    · subst hx
      simp [Memory.make]
    · simp [Memory.make, hx, h.live]
  · rw [hobjects, Multiset.add_cons]
    exact congrArg (o ::ₘ ·) h.objects
  · rw [hobjects]
    exact Multiset.nodup_cons.mpr ⟨fun hmem => once ((h.waiting o).mpr hmem), h.once⟩
  · intro o'
    rw [hobjects, Multiset.mem_cons, ← h.waiting]
    exact Iff.rfl
  · exact h.unmade
  · exact h.sound.retire o

/-- **A node is deleted**, with its object. -/
theorem delete (h : Ledger m (node ::ₘ nodes)) (object : m.cell node = some o) :
    Ledger (m.delete node o) nodes := by
  obtain ⟨hout, hnodup⟩ := Multiset.nodup_cons.mp h.nodup
  have hobjects := h.objects
  have honce := h.once
  have hwaiting := h.waiting
  rw [Multiset.filterMap_cons_some _ _ _ object] at hobjects honce hwaiting
  constructor
  · exact hnodup
  · intro x
    by_cases hx : x = node
    · subst hx
      simp [Memory.delete, hout]
    · have hlive := h.live x
      simp only [Multiset.mem_cons, hx, false_or] at hlive
      simp [Memory.delete, hx, hlive]
  · rw [Memory.delete, filterMap_update hout, ← Multiset.cons_coe, Multiset.cons_add,
      ← Multiset.add_cons]
    exact hobjects
  · rw [Memory.delete, filterMap_update hout]
    exact (Multiset.nodup_cons.mp honce).2
  · intro o'
    rw [Memory.delete, filterMap_update hout]
    have hne : o' = o → o' ∉ nodes.filterMap m.cell :=
      fun heq => heq ▸ (Multiset.nodup_cons.mp honce).1
    show o' ∈ m.waiting \ {o} ↔ _
    simp only [Set.mem_sdiff, Set.mem_singleton_iff, hwaiting, Multiset.mem_cons]
    tauto
  · exact h.unmade
  · exact h.sound.free o

/-- **A holder is written.** -/
theorem store (h : Ledger m nodes) {k : ℕ} (made : k ∈ m.holders) (v : Option ℕ) :
    Ledger (m.store k v) nodes := by
  obtain ⟨hnodup, hlive, hobjects, honce, hwaiting, hunmade, hsound⟩ := h
  refine ⟨hnodup, hlive, hobjects, honce, hwaiting, fun j hj => ?_, hsound.store k v⟩
  exact (Function.update_of_ne (ne_of_mem_of_not_mem made hj).symm _ _).trans (hunmade j hj)

/-- What is on a node waits to be freed. -/
theorem waits (h : Ledger m nodes) {x : ℕ} (mem : x ∈ nodes) (object : m.cell x = some o) :
    o ∈ m.waiting := by
  rw [h.waiting, Multiset.mem_filterMap]
  exact ⟨x, mem, object⟩

/-- What guards an object that waits is a holder, which holds it. -/
theorem guard (h : Ledger m nodes) (waits : o ∈ m.waiting) {k : ℕ} (guards : k ∈ m.guards o) :
    k ∈ m.holders ∧ m.ptr k = some o := by
  have hptr : m.ptr k = some o := h.sound o waits k guards
  refine ⟨?_, hptr⟩
  by_contra hout
  exact Option.some_ne_none o (hptr.symm.trans (h.unmade k hout))

end Ledger

/-! ## What a thread has in hand -/

/-- The nodes of the lists that were extracted. -/
inductive Lists (next : ℕ → Option ℕ) : List (Option ℕ) → List ℕ → Prop
  | nil : Lists next [] []
  | cons {obj : Option ℕ} {untagged : List (Option ℕ)} {l nodes : List ℕ}
      (first : Linked next obj l none) (rest : Lists next untagged nodes) :
      Lists next (obj :: untagged) (l ++ nodes)

/-- **What a thread has in hand** at a place, and what it owes the counter: the nodes that it
has taken off the counter, or not counted yet, and not freed. -/
inductive Holds (m : Memory) : Place → List ℕ → ℤ → Prop
  | idle : Holds m .idle [] 0
  | pushLoad {node : ℕ} : Holds m (.pushLoad node) [node] 1
  | pushNext {node : ℕ} {oldval : Option ℕ} : Holds m (.pushNext node oldval) [node] 1
  | pushCas {node : ℕ} {oldval : Option ℕ} (next : m.next node = oldval) :
      Holds m (.pushCas node oldval) [node] 1
  | addOne : Holds m .addOne [] 1
  | checkLoad {done : Bool} : Holds m (.checkLoad done) [] 0
  | checkCas {done : Bool} {rcount : ℤ} : Holds m (.checkCas done rcount) [] 0
  | extract {rcount : ℤ} {untagged : List (Option ℕ)} {nodes : List ℕ}
      (lists : Lists m.next untagged nodes) : Holds m (.extract rcount untagged) nodes rcount
  | loadHead {rcount : ℤ} {untagged : List (Option ℕ)} {nodes : List ℕ}
      (lists : Lists m.next untagged nodes) : Holds m (.loadHead rcount untagged) nodes rcount
  | loadPtr {rcount : ℤ} {untagged : List (Option ℕ)} {nodes : List ℕ} {node : ℕ}
      {hs : List (Option ℕ)} (lists : Lists m.next untagged nodes) :
      Holds m (.loadPtr rcount untagged node hs) nodes rcount
  | loadNext {rcount : ℤ} {untagged : List (Option ℕ)} {nodes : List ℕ} {node : ℕ}
      {hs : List (Option ℕ)} (lists : Lists m.next untagged nodes) :
      Holds m (.loadNext rcount untagged node hs) nodes rcount
  | matchReclaim {rcount : ℤ} {untagged : List (Option ℕ)} {nodes : List ℕ}
      {hs : List (Option ℕ)} (lists : Lists m.next untagged nodes) :
      Holds m (.matchReclaim rcount untagged hs) nodes rcount
  | matching {w : Work} {obj : Option ℕ} {matched noMatch : LinkedList} {l l₁ l₂ l₃ nodes : List ℕ}
      (first : Linked m.next obj l none) (matched_is : matched.Is m.next l₁)
      (noMatch_is : noMatch.Is m.next l₂) (notReclaimed : w.notReclaimed.Is m.next l₃)
      (lists : Lists m.next w.untagged nodes)
      (unheld : ∀ x ∈ l₂, ∀ o, m.cell x = some o → some o ∉ w.hs) :
      Holds m (.matching w obj matched noMatch) (l ++ (l₁ ++ (l₂ ++ (l₃ ++ nodes))))
        (w.rcount - w.count)
  | reclaimObj {w : Work} {obj : Option ℕ} {matched : LinkedList} {l l₁ l₃ nodes : List ℕ}
      (first : Linked m.next obj l none) (matched_is : matched.Is m.next l₁)
      (notReclaimed : w.notReclaimed.Is m.next l₃) (lists : Lists m.next w.untagged nodes)
      (unheld : ∀ x ∈ l, ∀ o, m.cell x = some o → some o ∉ w.hs) :
      Holds m (.reclaimObj w obj matched) (l ++ (l₁ ++ (l₃ ++ nodes)))
        (w.rcount - w.count + l.length)
  | emptyTest {w : Work} {s : ℕ} {matched : LinkedList} {l₁ l₃ nodes : List ℕ}
      (matched_is : matched.Is m.next l₁) (notReclaimed : w.notReclaimed.Is m.next l₃)
      (lists : Lists m.next w.untagged nodes) :
      Holds m (.emptyTest w s matched) (l₁ ++ (l₃ ++ nodes)) (w.rcount - w.count)
  | splice {w : Work} {matched : LinkedList} {l₁ l₃ nodes : List ℕ}
      (matched_is : matched.Is m.next l₁) (notReclaimed : w.notReclaimed.Is m.next l₃)
      (lists : Lists m.next w.untagged nodes) :
      Holds m (.splice w matched) (l₁ ++ (l₃ ++ nodes)) (w.rcount - w.count)
  | listLoad {w : Work} {nodes : List ℕ} (notReclaimed : w.notReclaimed.Is m.next nodes) :
      Holds m (.listLoad w) nodes (w.rcount - w.count)
  | listNext {w : Work} {oldval other : Option ℕ} {rest : List ℕ} {last : ℕ}
      (linked : Linked m.next w.notReclaimed.head (rest ++ [last]) other)
      (tail : w.notReclaimed.tail = some last) :
      Holds m (.listNext w oldval) (rest ++ [last]) (w.rcount - w.count)
  | listCas {w : Work} {oldval : Option ℕ} {rest : List ℕ} {last : ℕ}
      (linked : Linked m.next w.notReclaimed.head (rest ++ [last]) oldval)
      (tail : w.notReclaimed.tail = some last) :
      Holds m (.listCas w oldval) (rest ++ [last]) (w.rcount - w.count)
  | addCount {rcount : ℤ} {done : Bool} : Holds m (.addCount rcount done) [] rcount
  | loadTail {node : ℕ} : Holds m (.loadTail node) [] 0
  | casTail {node tail : ℕ} : Holds m (.casTail node tail) [] 0
  | linkNext {node tail : ℕ} : Holds m (.linkNext node tail) [] 0

section InHand

variable {m m' : Memory} {next' : ℕ → Option ℕ} {p : Place} {nodes : List ℕ} {owed : ℤ}

theorem Lists.congr {untagged : List (Option ℕ)} (h : Lists m.next untagged nodes)
    (same : ∀ x ∈ nodes, next' x = m.next x) : Lists next' untagged nodes := by
  induction h with
  | nil => exact .nil
  | cons first _ ih =>
      exact .cons (first.congr fun x hx => same x (List.mem_append_left _ hx))
        (ih fun x hx => same x (List.mem_append_right _ hx))

/-- One more list is extracted. -/
theorem Lists.append {untagged : List (Option ℕ)} (h : Lists m.next untagged nodes)
    {obj : Option ℕ} {l : List ℕ} (linked : Linked m.next obj l none) :
    Lists m.next (untagged ++ [obj]) (nodes ++ l) := by
  induction h with
  | nil => exact (List.append_nil l ▸ .cons linked .nil : Lists m.next [obj] l)
  | cons first _ ih =>
      rw [List.append_assoc]
      exact .cons first ih

/-- When all lists are empty, there are no nodes. -/
theorem Lists.eq_nil {untagged : List (Option ℕ)} (h : Lists m.next untagged nodes)
    (empty : ∀ obj ∈ untagged, obj = none) : nodes = [] := by
  induction h with
  | nil => rfl
  | cons first _ ih =>
      rw [empty _ List.mem_cons_self] at first
      rw [first.eq_nil, ih fun obj hobj => empty obj (List.mem_cons_of_mem _ hobj)]
      rfl

/-- What a thread has in hand depends on these nodes alone. -/
theorem Holds.congr (h : Holds m p nodes owed)
    (same : ∀ x ∈ nodes, m'.next x = m.next x ∧ m'.cell x = m.cell x) : Holds m' p nodes owed := by
  have hnext : ∀ x ∈ nodes, m'.next x = m.next x := fun x hx => (same x hx).1
  cases h with
  | idle => exact .idle
  | pushLoad => exact .pushLoad
  | pushNext => exact .pushNext
  | pushCas next => exact .pushCas ((hnext _ List.mem_cons_self).trans next)
  | addOne => exact .addOne
  | checkLoad => exact .checkLoad
  | checkCas => exact .checkCas
  | extract lists => exact .extract (lists.congr hnext)
  | loadHead lists => exact .loadHead (lists.congr hnext)
  | loadPtr lists => exact .loadPtr (lists.congr hnext)
  | loadNext lists => exact .loadNext (lists.congr hnext)
  | matchReclaim lists => exact .matchReclaim (lists.congr hnext)
  | matching first matched_is noMatch_is notReclaimed lists unheld =>
      simp only [List.mem_append] at hnext same
      exact .matching (first.congr fun x hx => hnext x (by simp [hx]))
        (matched_is.congr fun x hx => hnext x (by simp [hx]))
        (noMatch_is.congr fun x hx => hnext x (by simp [hx]))
        (notReclaimed.congr fun x hx => hnext x (by simp [hx]))
        (lists.congr fun x hx => hnext x (by simp [hx]))
        fun x hx o ho => unheld x hx o ((same x (by simp [hx])).2 ▸ ho)
  | reclaimObj first matched_is notReclaimed lists unheld =>
      simp only [List.mem_append] at hnext same
      exact .reclaimObj (first.congr fun x hx => hnext x (by simp [hx]))
        (matched_is.congr fun x hx => hnext x (by simp [hx]))
        (notReclaimed.congr fun x hx => hnext x (by simp [hx]))
        (lists.congr fun x hx => hnext x (by simp [hx]))
        fun x hx o ho => unheld x hx o ((same x (by simp [hx])).2 ▸ ho)
  | emptyTest matched_is notReclaimed lists =>
      simp only [List.mem_append] at hnext
      exact .emptyTest (matched_is.congr fun x hx => hnext x (by simp [hx]))
        (notReclaimed.congr fun x hx => hnext x (by simp [hx]))
        (lists.congr fun x hx => hnext x (by simp [hx]))
  | splice matched_is notReclaimed lists =>
      simp only [List.mem_append] at hnext
      exact .splice (matched_is.congr fun x hx => hnext x (by simp [hx]))
        (notReclaimed.congr fun x hx => hnext x (by simp [hx]))
        (lists.congr fun x hx => hnext x (by simp [hx]))
  | listLoad notReclaimed => exact .listLoad (notReclaimed.congr hnext)
  | listNext linked tail => exact .listNext (linked.congr hnext) tail
  | listCas linked tail => exact .listCas (linked.congr hnext) tail
  | addCount => exact .addCount
  | loadTail => exact .loadTail
  | casTail => exact .casTail
  | linkNext => exact .linkNext

/-- The loop over the holders is about no node. -/
theorem holds_visit {rcount : ℤ} {untagged hs : List (Option ℕ)} (node : Option ℕ)
    (lists : Lists m.next untagged nodes) :
    Holds m (visit rcount untagged hs node) nodes rcount := by
  cases node with
  | none => exact .matchReclaim lists
  | some node => exact .loadPtr lists

end InHand

/-! ## What a step can do -/

/-- **What a step can do**, of a thread that has some nodes in hand: it works on these, makes a
node, puts all its nodes in front of a list, takes a list, deletes a node that it has not found
protected, or is about the list of the holders or a holder. -/
inductive Does (m : Memory) (p : Place) (nodes : List ℕ) (owed : ℤ) (m' : Memory) (p' : Place) : Prop
  | works {next' : ℕ → Option ℕ} {count' owed' : ℤ} {nodes' : List ℕ}
      (memory : m' = { m with next := next', count := count' }) (perm : nodes'.Perm nodes)
      (holds : Holds m' p' nodes' owed') (counts : count' + owed' = m.count + owed)
      (frame : ∀ x ∉ nodes, next' x = m.next x)
  | makes {node o : ℕ} (memory : m' = m.make node o) (once : o ∉ m.waiting)
      (free : m.cell node = none) (nothing : nodes = [] ∧ owed = 0) (holds : Holds m' p' [node] 1)
      (quiet : p'.list.isLoading = false)
  | gives {s : Fin kNumShards} {first : Option ℕ} (memory : m' = m.setHead s first)
      (linked : Linked m.next first nodes (m.head s)) (holds : Holds m' p' [] owed)
  | takes {s : Fin kNumShards} (memory : m' = m.setHead s none)
      (holds : ∀ l, Linked m.next (m.head s) l none → Holds m' p' (nodes ++ l) owed)
      (quiet : p'.list.isLoading = false)
  | deletes {node o : ℕ} {nodes' : List ℕ} (memory : m' = m.delete node o)
      (object : m.cell node = some o) (perm : nodes = node :: nodes')
      (holds : node ∉ nodes' → Holds m' p' nodes' (owed - 1))
      (unseen : ∀ next k, ¬ HolderList.Sees next k o p.list)
  | links {tail' nodes' : ℕ} {nextHolder' : ℕ → Option ℕ} {holders' : Finset ℕ}
      (memory : m' = { m with tail := tail', nextHolder := nextHolder', nodes := nodes',
                              holders := holders' })
      (made : m.holders ⊆ holders') (nothing : nodes = [] ∧ owed = 0) (holds : Holds m' p' [] 0)
  | stores {k : ℕ} {v : Option ℕ} (memory : m' = m.store k v) (made : k ∈ m.holders)
      (nothing : nodes = [] ∧ owed = 0) (holds : Holds m' p' [] 0)

section Steps

variable {ι : Type*} {t : ι} {m m' : Memory} {p p' : Place} {nodes : List ℕ} {owed : ℤ}

/-- A step that is only about the place. -/
theorem Does.stays {owed' : ℤ} {nodes' : List ℕ} (perm : nodes'.Perm nodes)
    (holds : Holds m p' nodes' owed') (counts : owed' = owed) : Does m p nodes owed m p' := by
  have hsame : m = { m with next := m.next, count := m.count } := rfl
  exact .works hsame perm holds (by rw [counts]) fun _ _ => rfl

theorem holds_checked (m : Memory) (count : ℤ) (done : Bool) :
    Holds m (checked count done) [] 0 := by
  unfold checked behindCheck
  split
  · exact .checkCas
  · split
    · exact .idle
    · exact .extract .nil

theorem holds_addBack (m : Memory) (rcount : ℤ) (done : Bool) :
    Holds m (addBack rcount done) [] rcount := by
  unfold addBack
  split
  · rename_i heq
    exact heq ▸ .checkLoad
  · exact .addCount

/-- The next list is matched, or what is not reclaimed is put back. -/
theorem holds_nextShard {w : Work} {l₃ : List ℕ} (notReclaimed : w.notReclaimed.Is m.next l₃)
    (lists : Lists m.next w.untagged nodes) :
    ∃ nodes', nodes'.Perm (l₃ ++ nodes) ∧ Holds m (nextShard w) nodes' (w.rcount - w.count) := by
  unfold nextShard
  generalize huntagged : w.untagged = untagged at lists
  cases lists with
  | nil =>
      refine ⟨l₃, by simp, ?_⟩
      exact .listLoad notReclaimed
  | @cons obj untagged l nodes first rest =>
      refine ⟨l ++ ([] ++ ([] ++ (l₃ ++ nodes))), ?_, ?_⟩
      · simpa using List.perm_append_comm_assoc l l₃ nodes
      · exact .matching first (.new _) (.new _) notReclaimed rest (by simp)

/-- A node, the list that it is put on, and the other nodes in hand. -/
theorem nodup_parts {node : ℕ} {rest l others : List ℕ}
    (nodup : (node :: rest ++ (l ++ others)).Nodup) :
    l.Nodup ∧ node ∉ l ∧ ∀ x, x ∈ rest ∨ x ∈ others → x ≠ node ∧ x ∉ l := by
  simp only [List.cons_append, List.nodup_cons, List.nodup_append, List.mem_append, not_or] at nodup
  obtain ⟨⟨hrest, hl, hothers⟩, -, ⟨hnodup, -, hdisjoint⟩, hapart⟩ := nodup
  refine ⟨hnodup, hl, fun x hx => ?_⟩
  rcases hx with hx | hx
  · exact ⟨ne_of_mem_of_not_mem hx hrest, fun h => hapart x hx x (.inl h) rfl⟩
  · exact ⟨ne_of_mem_of_not_mem hx hothers, fun h => hdisjoint x h x hx rfl⟩

/-- **What a thread does** is what its nodes allow. -/
theorem Holds.does (h : Holds m p nodes owed) (nodup : nodes.Nodup) (moved : Next t m p m' p') :
    Does m p nodes owed m' p' := by
  cases moved with
  -- `retire`: the node is built outside the lists, then pushed with a compare-and-swap
  | retire o once free =>
      cases h
      exact .makes rfl once free ⟨rfl, rfl⟩ .pushLoad rfl
  | pushLoad =>
      cases h
      exact .stays (.refl _) .pushNext rfl
  | pushNext =>
      cases h
      refine .works rfl (.refl _) (.pushCas (Function.update_self _ _ _)) rfl fun x hx => ?_
      exact Function.update_of_ne (by simpa using hx) _ _
  | pushCas equal =>
      cases h with
      | pushCas next => exact .gives rfl ⟨rfl, next.trans equal.symm⟩ .addOne
  | pushCasFails =>
      cases h
      exact .stays (.refl _) .pushNext rfl
  | addOne =>
      cases h
      exact .works rfl (.refl _) .checkLoad (by omega) fun _ _ => rfl
  | checkLoad | checkCasFails =>
      cases h
      exact .stays (.refl _) (holds_checked m m.count _) rfl
  | checkCas =>
      cases h
      exact .works rfl (.refl _) (.extract .nil) (by omega) fun _ _ => rfl
  | reclaim =>
      cases h
      exact .stays (.refl _) (.extract .nil) rfl
  -- each shard is taken as a whole with an exchange, and its list joins those in hand
  | extract lt =>
      cases h with
      | extract lists =>
          exact .takes rfl (fun l hl => .extract (lists.append hl)) rfl
  | extracted all =>
      cases h with
      | extract lists =>
          split
          · rename_i hempty
            rw [lists.eq_nil hempty]
            exact .stays (.refl _) (holds_addBack m owed true) rfl
          · exact .stays (.refl _) (.loadHead lists) rfl
  | loadHead =>
      cases h with
      | loadHead lists => exact .stays (.refl _) (holds_visit _ lists) rfl
  -- the walk of the holders reads pointers and moves no node
  | loadPtr =>
      cases h with
      | loadPtr lists => exact .stays (.refl _) (.loadNext lists) rfl
  | loadNext =>
      cases h with
      | loadNext lists => exact .stays (.refl _) (holds_visit _ lists) rfl
  | matchReclaim =>
      cases h with
      | matchReclaim lists =>
          obtain ⟨nodes', hperm, hholds⟩ := holds_nextShard
            (w := ⟨owed, _, _, .new, 0, true⟩) (.new _) lists
          exact .stays hperm hholds (sub_zero _)
  -- a node whose object some holder names goes to `matched`
  | @found w node o matched noMatch object held =>
      cases h with
      | @matching _ _ _ _ l l₁ l₂ l₃ nodes first matched_is noMatch_is notReclaimed lists unheld =>
          obtain ⟨rest, rfl, hrest⟩ := first.of_some
          obtain ⟨hnodup, hout, hothers⟩ := nodup_parts nodup
          obtain ⟨hpushed, hsame⟩ := matched_is.push hnodup hout
          have hnext : ∀ x, x ∈ rest ∨ x ∈ l₂ ++ (l₃ ++ nodes) →
              (matched.push m.next node).1 x = m.next x :=
            fun x hx => hsame x (hothers x hx).1 (hothers x hx).2
          refine .works rfl ?_ (.matching (hrest.congr fun x hx => hnext x (.inl hx)) hpushed
            (noMatch_is.congr fun x hx => hnext x (by simp [hx]))
            (notReclaimed.congr fun x hx => hnext x (by simp [hx]))
            (lists.congr fun x hx => hnext x (by simp [hx])) unheld) rfl fun x hx => ?_
          · rw [List.append_assoc, List.singleton_append, ← List.append_assoc rest]
            exact (List.perm_middle.trans (by rw [List.append_assoc]; exact .refl _))
          · simp only [List.cons_append, List.mem_cons, List.mem_append, not_or] at hx
            exact hsame x hx.1 hx.2.2.1
  -- any other node goes to the list that is deleted: no holder named its object
  | @notFound w node o matched noMatch object free =>
      cases h with
      | @matching _ _ _ _ l l₁ l₂ l₃ nodes first matched_is noMatch_is notReclaimed lists unheld =>
          obtain ⟨rest, rfl, hrest⟩ := first.of_some
          rw [← List.append_assoc, List.cons_append] at nodup
          obtain ⟨hnodup, hout, hothers⟩ := nodup_parts nodup
          obtain ⟨hpushed, hsame⟩ := noMatch_is.push hnodup hout
          have hnext : ∀ x, x ∈ rest ++ l₁ ∨ x ∈ l₃ ++ nodes →
              (noMatch.push m.next node).1 x = m.next x :=
            fun x hx => hsame x (hothers x hx).1 (hothers x hx).2
          refine .works rfl ?_ (.matching (hrest.congr fun x hx => hnext x (by simp [hx]))
            (matched_is.congr fun x hx => hnext x (by simp [hx])) hpushed
            (notReclaimed.congr fun x hx => hnext x (by simp [hx]))
            (lists.congr fun x hx => hnext x (by simp [hx])) ?_) rfl fun x hx => ?_
          · rw [List.append_assoc l₂, List.singleton_append, ← List.append_assoc rest,
              ← List.append_assoc (rest ++ l₁)]
            refine List.perm_middle.trans ?_
            simp only [List.append_assoc, List.cons_append]
            exact .refl _
          -- what is known of the list's objects now also holds of this one
          · intro x hx o' ho'
            rcases List.mem_append.mp hx with hx | hx
            · exact unheld x hx o' ho'
            · obtain rfl := List.mem_singleton.mp hx
              obtain rfl := Option.some.inj (object.symm.trans ho')
              exact free
          · simp only [List.cons_append, List.mem_cons, List.mem_append, not_or] at hx
            exact hsame x hx.1 hx.2.2.2.1
  | allMatched =>
      cases h with
      | @matching _ _ _ _ l l₁ l₂ l₃ nodes first matched_is noMatch_is notReclaimed lists unheld =>
          obtain rfl := first.eq_nil
          refine .stays ?_ (.reclaimObj noMatch_is.linked matched_is notReclaimed lists unheld) ?_
          · exact List.perm_append_comm_assoc l₂ l₁ (l₃ ++ nodes)
          · rw [noMatch_is.size]
            push_cast
            omega
  -- the object is deleted, and the node leaves the hands of the thread with it
  | reclaimObj object =>
      cases h with
      | reclaimObj first matched_is notReclaimed lists unheld =>
          obtain ⟨rest, rfl, hrest⟩ := first.of_some
          have hfree := unheld _ List.mem_cons_self _ object
          refine .deletes rfl object rfl (fun hout => ?_) fun _ _ h => hfree h
          have hheld := Holds.reclaimObj hrest matched_is notReclaimed lists
            fun x hx => unheld x (List.mem_cons_of_mem _ hx)
          rw [List.length_cons, Nat.cast_succ, ← add_assoc, add_sub_cancel_right]
          exact hheld.congr fun x hx =>
            ⟨rfl, Function.update_of_ne (ne_of_mem_of_not_mem hx hout) _ _⟩
  | reclaimed =>
      cases h with
      | reclaimObj first matched_is notReclaimed lists unheld =>
          obtain rfl := first.eq_nil
          rw [List.nil_append]
          exact .stays (.refl _) (.emptyTest matched_is notReclaimed lists) (by simp)
  | emptyTest lt =>
      cases h with
      | emptyTest matched_is notReclaimed lists =>
          split
          · exact .stays (.refl _) (.emptyTest matched_is notReclaimed lists) rfl
          · exact .stays (.refl _) (.splice matched_is notReclaimed lists) rfl
  | allEmpty all =>
      cases h with
      | emptyTest matched_is notReclaimed lists =>
          exact .stays (.refl _) (.splice matched_is notReclaimed lists) rfl
  -- what was kept is put in front of the nodes that earlier shards kept
  | @splice w matched =>
      cases h with
      | @splice _ _ l₁ l₃ nodes matched_is notReclaimed lists =>
          obtain ⟨hnodup, hnodup', hdisjoint⟩ := List.nodup_append.mp nodup
          obtain ⟨hnodup₃, -, hdisjoint₃⟩ := List.nodup_append.mp hnodup'
          have hboth : (l₃ ++ l₁).Nodup := List.nodup_append.mpr
            ⟨hnodup₃, hnodup, fun x hx y hy => (hdisjoint y hy x (by simp [hx])).symm⟩
          obtain ⟨hspliced, hsame⟩ := notReclaimed.splice matched_is hboth
          have hnext : ∀ x ∈ nodes, (w.notReclaimed.splice matched m.next).1 x = m.next x :=
            fun x hx => hsame x fun h => hdisjoint₃ x h x hx rfl
          obtain ⟨nodes', hperm, hholds⟩ := holds_nextShard
            (m := { m with next := (w.notReclaimed.splice matched m.next).1 })
            (w := { w with notReclaimed := (w.notReclaimed.splice matched m.next).2 })
            hspliced (lists.congr hnext)
          refine .works rfl (hperm.trans ?_) hholds rfl fun x hx => hsame x ?_
          · rw [List.append_assoc]
            exact List.perm_append_comm_assoc l₃ l₁ nodes
          · simp only [List.mem_append, not_or] at hx
            exact hx.2.1
  | listEmpty empty =>
      cases h with
      | listLoad notReclaimed =>
          obtain rfl := notReclaimed.eq_nil empty
          exact .stays (.refl _) (holds_addBack m _ _) rfl
  -- the kept nodes go back in one compare-and-swap of a whole list
  | listLoad first =>
      cases h with
      | listLoad notReclaimed =>
          obtain ⟨rest, last, rfl, htail⟩ := notReclaimed.eq_append first
          exact .stays (.refl _) (.listNext notReclaimed.linked htail) rfl
  | @listNext w oldval =>
      cases h with
      | listNext linked tail =>
          simp only [tail, LinkedList.setNext]
          refine .works rfl (.refl _) (.listCas (linked.update_last nodup oldval) tail) rfl
            fun x hx => Function.update_of_ne (fun heq => hx (by simp [heq])) _ _
  | listCas equal =>
      cases h with
      | listCas linked tail =>
          subst equal
          exact .gives rfl linked (holds_addBack _ _ _)
  | listCasFails =>
      cases h with
      | listCas linked tail =>
          exact .stays (.refl _) (.listNext linked tail) rfl
  | addCount =>
      cases h
      exact .works rfl (.refl _) .checkLoad (by omega) fun _ _ => rfl
  -- the steps of `push_back` touch the holder list and none of the nodes
  | makeHolder =>
      cases h
      exact .links rfl subset_rfl ⟨rfl, rfl⟩ .loadTail
  | loadTail | casTailFails =>
      cases h
      exact .stays (.refl _) .casTail rfl
  | casTail equal =>
      cases h
      exact .links rfl subset_rfl ⟨rfl, rfl⟩ .linkNext
  | linkNext =>
      cases h
      exact .links rfl (Finset.subset_insert _ _) ⟨rfl, rfl⟩ .idle
  | protect holder value made =>
      cases h
      exact .stores rfl made ⟨rfl, rfl⟩ .idle

end Steps

/-! ## The invariant -/

section Invariant

variable {ι : Type*} [Fintype ι] [DecidableEq ι]

/-- The thread looks at the counter and has not decided what to do. -/
def Place.isChecking : Place → Bool
  | .checkLoad _ | .checkCas _ _ => true
  | _ => false

/-- **What holds of the whole**: the nodes are on the eight lists and in the hands of the
threads, and the counter says how many they are, up to what threads owe.  When it has reached the
threshold, somebody is going to see it. -/
structure Whole (c : Config ι Memory Place) (own : Fin kNumShards ⊕ ι → List ℕ) (owes : ι → ℤ) :
    Prop where
  shard : ∀ s, Linked c.shared.next (c.shared.head s) (own (.inl s)) none
  holds : ∀ i, Holds c.shared (c.pc i) (own (.inr i)) (owes i)
  ledger : Ledger c.shared (everything own)
  count : c.shared.count + ∑ i, owes i = (everything own).card
  checks : 1000 ≤ c.shared.count → ∃ i, (c.pc i).isChecking = true

omit [DecidableEq ι] in
theorem whole_new : Whole (new : Config ι Memory Place) (fun _ => []) (fun _ => 0) where
  shard _ := rfl
  holds _ := .idle
  ledger := by
    constructor <;> simp [new, Memory.new, Memory.hazards, everything, Hazards.Sound]
  count := by simp [new, Memory.new, everything]
  checks h := absurd h (by simp [new, Memory.new])

variable {c : Config ι Memory Place} {own : Fin kNumShards ⊕ ι → List ℕ} {owes : ι → ℤ} {i : ι}
  {m : Memory} {p : Place}

/-- **What a step passes on**: a thread had the nodes in its hands before, with their objects, or
has not begun to load pointers; and what waits to be freed gets no new guards. -/
structure Passes (c : Config ι Memory Place) (own own' : Fin kNumShards ⊕ ι → List ℕ) (i : ι)
    (m : Memory) (p : Place) : Prop where
  held : ∀ j, ∀ x ∈ own' (.inr j), ∀ o, m.cell x = some o →
    (x ∈ own (.inr j) ∧ c.shared.cell x = some o) ∨ (j = i ∧ p.list.isLoading = false)
  guards : ∀ x o, c.shared.cell x = some o → m.guards o ⊆ c.shared.guards o

/-- **A step of a thread**, by what it does to the nodes in its hands and to the lists, and what
it leaves of the others. -/
theorem Whole.step (h : Whole c own owes) {own' : Fin kNumShards ⊕ ι → List ℕ} {owed : ℤ}
    (others : ∀ j ≠ i, own' (.inr j) = own (.inr j))
    (shard : ∀ s, Linked m.next (m.head s) (own' (.inl s)) none)
    (holds : Holds m p (own' (.inr i)) owed)
    (held : own' (.inr i) ⊆ own (.inr i) ∨ p.list.isLoading = false)
    (frame : ∀ x ∉ own (.inr i), c.shared.cell x ≠ none →
      m.next x = c.shared.next x ∧ m.cell x = c.shared.cell x)
    (objects : ∀ x ∈ own' (.inr i), c.shared.cell x ≠ none → m.cell x = c.shared.cell x)
    (guards : ∀ x o, c.shared.cell x = some o → m.guards o ⊆ c.shared.guards o)
    (ledger : Ledger m (everything own'))
    (count : m.count + owed + (everything own).card
      = c.shared.count + owes i + (everything own').card)
    (checks : 1000 ≤ m.count → p.isChecking = true ∨ (1000 ≤ c.shared.count ∧
      (c.pc i).isChecking = false)) :
    Whole (c.move i m p) own' (Function.update owes i owed) ∧ Passes c own own' i m p := by
  have hlive : ∀ j, ∀ x ∈ own (.inr j), c.shared.cell x ≠ none := fun j x hx =>
    (h.ledger.live x).mp (mem_everything.mpr ⟨_, hx⟩)
  -- the nodes in the hands of the others are none of those that the step writes
  have hframe : ∀ j ≠ i, ∀ x ∈ own (.inr j),
      m.next x = c.shared.next x ∧ m.cell x = c.shared.cell x := fun j hne x hx =>
    frame x (notMem_of_ne h.ledger.nodup (Sum.inr_injective.ne hne) hx) (hlive j x hx)
  refine ⟨⟨shard, fun j => ?_, ledger, ?_, fun hcount => ?_⟩, fun j x hx o ho => ?_, guards⟩
  · by_cases hji : j = i
    · subst hji
      rwa [Config.move_pc_self, Function.update_self]
    · rw [Config.move_pc_of_ne c hji, Function.update_of_ne hji, others j hji]
      exact (h.holds j).congr (hframe j hji)
  · have hsum := sum_update owes i owed
    have hold := h.count
    rw [Config.move_shared]
    omega
  · rcases checks hcount with hp | ⟨hold, hp⟩
    · exact ⟨i, by rwa [Config.move_pc_self]⟩
    · obtain ⟨j, hj⟩ := h.checks hold
      refine ⟨j, ?_⟩
      rwa [Config.move_pc_of_ne c]
      rintro rfl
      exact absurd (hj.symm.trans hp) (by simp)
  · by_cases hji : j = i
    · subst hji
      rcases held with hheld | hquiet
      · have hmem := hheld hx
        exact .inl ⟨hmem, (objects x hx (hlive j x hmem)).symm.trans ho⟩
      · exact .inr ⟨rfl, hquiet⟩
    · rw [others j hji] at hx
      exact .inl ⟨hx, (hframe j hji x hx).2.symm.trans ho⟩

omit [Fintype ι] [DecidableEq ι] in
/-- Whoever lets the counter reach the threshold looks at it next. -/
theorem Next.checks {m₀ : Memory} {p₀ : Place} (moved : Next i m₀ p₀ m p) (reached : 1000 ≤ m.count) :
    p.isChecking = true ∨ (1000 ≤ m₀.count ∧ p₀.isChecking = false) := by
  cases moved with
  | addOne | addCount => exact .inl rfl
  | checkLoad | checkCasFails =>
      rw [checked, if_pos reached]
      exact .inl rfl
  | checkCas => exact absurd reached (by simp)
  | _ => exact .inr ⟨reached, rfl⟩

/-- The nodes of a list are in nobody's hands. -/
theorem Whole.shard_congr (h : Whole c own owes) {next : ℕ → Option ℕ}
    (frame : ∀ x ∉ own (.inr i), next x = c.shared.next x) (s : Fin kNumShards) :
    Linked next (c.shared.head s) (own (.inl s)) none :=
  (h.shard s).congr fun x hx => frame x (notMem_of_ne h.ledger.nodup Sum.inl_ne_inr hx)

/-- **A thread works on its nodes.** -/
theorem Whole.works (h : Whole c own owes) {next' : ℕ → Option ℕ} {count' owed' : ℤ}
    {nodes' : List ℕ} (perm : nodes'.Perm (own (.inr i)))
    (holds : Holds { c.shared with next := next', count := count' } p nodes' owed')
    (counts : count' + owed' = c.shared.count + owes i)
    (frame : ∀ x ∉ own (.inr i), next' x = c.shared.next x)
    (checks : 1000 ≤ count' → p.isChecking = true ∨ (1000 ≤ c.shared.count ∧
      (c.pc i).isChecking = false)) :
    Whole (c.move i { c.shared with next := next', count := count' } p)
        (Function.update own (.inr i) nodes') (Function.update owes i owed') ∧
      Passes c own (Function.update own (.inr i) nodes') i
        { c.shared with next := next', count := count' } p := by
  have hall : everything (Function.update own (.inr i) nodes') = everything own := by
    have hupdate := everything_update own (.inr i) nodes'
    rw [Multiset.coe_eq_coe.mpr perm] at hupdate
    exact add_right_cancel hupdate
  refine h.step (fun j hj => ?_) (fun s => ?_) ?_ (.inl ?_) (fun x hx _ => ⟨frame x hx, rfl⟩)
    (fun _ _ _ => rfl) (fun _ _ _ => subset_rfl) ?_ ?_ checks
  · exact Function.update_of_ne (Sum.inr_injective.ne hj) _ _
  · rw [Function.update_of_ne Sum.inl_ne_inr]
    exact h.shard_congr frame s
  · rwa [Function.update_self]
  · rw [Function.update_self]
    exact perm.subset
  · rw [hall]
    exact h.ledger.congr rfl rfl rfl rfl subset_rfl
  · rw [hall, counts]

/-- **A thread makes a node.** -/
theorem Whole.makes (h : Whole c own owes) {node o : ℕ} (once : o ∉ c.shared.waiting)
    (free : c.shared.cell node = none) (nothing : own (.inr i) = [] ∧ owes i = 0)
    (holds : Holds (c.shared.make node o) p [node] 1) (quiet : p.list.isLoading = false)
    (checks : 1000 ≤ c.shared.count → p.isChecking = true ∨ (1000 ≤ c.shared.count ∧
      (c.pc i).isChecking = false)) :
    Whole (c.move i (c.shared.make node o) p) (Function.update own (.inr i) [node])
        (Function.update owes i 1) ∧
      Passes c own (Function.update own (.inr i) [node]) i (c.shared.make node o) p := by
  have hall : everything (Function.update own (.inr i) [node]) = node ::ₘ everything own := by
    have hupdate := everything_update own (.inr i) [node]
    rwa [nothing.1, Multiset.coe_nil, add_zero, Multiset.coe_singleton, add_comm,
      Multiset.singleton_add] at hupdate
  have hother : ∀ x, c.shared.cell x ≠ none → x ≠ node := by
    rintro x hx rfl
    exact hx free
  refine h.step (fun j hj => ?_) (fun s => ?_) ?_ (.inr quiet) (fun x _ hx => ?_)
    (fun x _ hx => Function.update_of_ne (hother x hx) _ _) (fun x o' ho' => ?_) ?_ ?_ checks
  · exact Function.update_of_ne (Sum.inr_injective.ne hj) _ _
  · rw [Function.update_of_ne Sum.inl_ne_inr]
    refine (h.shard s).congr fun x hx => ?_
    exact Function.update_of_ne
      (hother x ((h.ledger.live x).mp (mem_everything.mpr ⟨_, hx⟩))) _ _
  · rwa [Function.update_self]
  · exact ⟨Function.update_of_ne (hother x hx) _ _, Function.update_of_ne (hother x hx) _ _⟩
  · have hwaits := h.ledger.waits ((h.ledger.live x).mpr (by simp [ho'])) ho'
    exact (Hazards.retire_guards_of_ne (h := c.shared.hazards)
      (ne_of_mem_of_not_mem hwaits once)).subset
  · rw [hall]
    exact h.ledger.make once free
  · rw [hall, nothing.2, Multiset.card_cons]
    simp only [Memory.make]
    push_cast
    omega

/-- **A thread puts its nodes on a list.** -/
theorem Whole.gives (h : Whole c own owes) {s : Fin kNumShards} {first : Option ℕ}
    (linked : Linked c.shared.next first (own (.inr i)) (c.shared.head s))
    (holds : Holds (c.shared.setHead s first) p [] (owes i))
    (checks : 1000 ≤ c.shared.count → p.isChecking = true ∨ (1000 ≤ c.shared.count ∧
      (c.pc i).isChecking = false)) :
    Whole (c.move i (c.shared.setHead s first) p)
        (Function.update (Function.update own (.inr i) []) (.inl s) (own (.inr i) ++ own (.inl s)))
        (Function.update owes i (owes i)) ∧
      Passes c own
        (Function.update (Function.update own (.inr i) []) (.inl s) (own (.inr i) ++ own (.inl s)))
        i (c.shared.setHead s first) p := by
  have hall : everything (Function.update (Function.update own (.inr i) []) (.inl s)
      (own (.inr i) ++ own (.inl s))) = everything own :=
    everything_exchange Sum.inr_ne_inl (.refl _)
  refine h.step (fun j hj => ?_) (fun s' => ?_) ?_ (.inl ?_) (fun _ _ _ => ⟨rfl, rfl⟩)
    (fun _ _ _ => rfl) (fun _ _ _ => subset_rfl) ?_ ?_ checks
  · rw [Function.update_of_ne Sum.inr_ne_inl, Function.update_of_ne (Sum.inr_injective.ne hj)]
  · by_cases hs : s' = s
    · subst hs
      rw [Function.update_self, Memory.setHead_head_self]
      exact linked.append (h.shard s')
    · rw [Function.update_of_ne (Sum.inl_injective.ne hs), Function.update_of_ne Sum.inl_ne_inr,
        Memory.setHead_head_of_ne hs]
      exact h.shard s'
  · rwa [Function.update_of_ne Sum.inr_ne_inl, Function.update_self]
  · rw [Function.update_of_ne Sum.inr_ne_inl, Function.update_self]
    exact List.nil_subset _
  · rw [hall]
    exact h.ledger.congr rfl rfl rfl rfl subset_rfl
  · rw [hall]
    rfl

/-- **A thread takes a list.** -/
theorem Whole.takes (h : Whole c own owes) {s : Fin kNumShards}
    (holds : ∀ l, Linked c.shared.next (c.shared.head s) l none →
      Holds (c.shared.setHead s none) p (own (.inr i) ++ l) (owes i))
    (quiet : p.list.isLoading = false)
    (checks : 1000 ≤ c.shared.count → p.isChecking = true ∨ (1000 ≤ c.shared.count ∧
      (c.pc i).isChecking = false)) :
    Whole (c.move i (c.shared.setHead s none) p)
        (Function.update (Function.update own (.inl s) []) (.inr i) (own (.inr i) ++ own (.inl s)))
        (Function.update owes i (owes i)) ∧
      Passes c own
        (Function.update (Function.update own (.inl s) []) (.inr i) (own (.inr i) ++ own (.inl s)))
        i (c.shared.setHead s none) p := by
  have hall : everything (Function.update (Function.update own (.inl s) []) (.inr i)
      (own (.inr i) ++ own (.inl s))) = everything own := by
    refine everything_exchange Sum.inl_ne_inr ?_
    rw [List.nil_append]
    exact List.perm_append_comm
  refine h.step (fun j hj => ?_) (fun s' => ?_) ?_ (.inr quiet) (fun _ _ _ => ⟨rfl, rfl⟩)
    (fun _ _ _ => rfl) (fun _ _ _ => subset_rfl) ?_ ?_ checks
  · rw [Function.update_of_ne (Sum.inr_injective.ne hj), Function.update_of_ne Sum.inr_ne_inl]
  · by_cases hs : s' = s
    · subst hs
      rw [Function.update_of_ne Sum.inl_ne_inr, Function.update_self, Memory.setHead_head_self]
      rfl
    · rw [Function.update_of_ne Sum.inl_ne_inr, Function.update_of_ne (Sum.inl_injective.ne hs),
        Memory.setHead_head_of_ne hs]
      exact h.shard s'
  · rw [Function.update_self]
    exact holds _ (h.shard s)
  · rw [hall]
    exact h.ledger.congr rfl rfl rfl rfl subset_rfl
  · rw [hall]
    rfl

/-- **A thread deletes a node.** -/
theorem Whole.deletes (h : Whole c own owes) {node o : ℕ} {nodes' : List ℕ}
    (object : c.shared.cell node = some o) (perm : own (.inr i) = node :: nodes')
    (holds : node ∉ nodes' → Holds (c.shared.delete node o) p nodes' (owes i - 1))
    (checks : 1000 ≤ c.shared.count → p.isChecking = true ∨ (1000 ≤ c.shared.count ∧
      (c.pc i).isChecking = false)) :
    Whole (c.move i (c.shared.delete node o) p) (Function.update own (.inr i) nodes')
        (Function.update owes i (owes i - 1)) ∧
      Passes c own (Function.update own (.inr i) nodes') i (c.shared.delete node o) p := by
  have hall : everything own = node ::ₘ everything (Function.update own (.inr i) nodes') := by
    have hupdate := everything_update own (.inr i) nodes'
    rw [perm, ← Multiset.cons_coe, Multiset.add_cons, ← Multiset.cons_add] at hupdate
    exact (add_right_cancel hupdate).symm
  have hnodup : (own (.inr i)).Nodup := Multiset.nodup_of_le (le_everything own _) h.ledger.nodup
  rw [perm, List.nodup_cons] at hnodup
  refine h.step (fun j hj => ?_) (fun s => ?_) ?_ (.inl ?_) (fun x hx _ => ⟨rfl, ?_⟩)
    (fun x hx _ => ?_) (fun _ _ _ => subset_rfl) ?_ ?_ checks
  · exact Function.update_of_ne (Sum.inr_injective.ne hj) _ _
  · rw [Function.update_of_ne Sum.inl_ne_inr]
    exact h.shard s
  · rw [Function.update_self]
    exact holds hnodup.1
  · rw [Function.update_self, perm]
    exact List.subset_cons_self _ _
  · exact Memory.delete_cell_of_ne (fun heq => hx (by simp [perm, heq])) _
  · rw [Function.update_self] at hx
    exact Memory.delete_cell_of_ne (ne_of_mem_of_not_mem hx hnodup.1) _
  · have hledger := h.ledger
    rw [hall] at hledger
    exact hledger.delete object
  · rw [hall, Multiset.card_cons]
    simp only [Memory.delete]
    push_cast
    omega

/-- **A step that is not about nodes.** -/
theorem Whole.idles (h : Whole c own owes) (nothing : own (.inr i) = [] ∧ owes i = 0)
    (same : m.head = c.shared.head ∧ m.next = c.shared.next ∧ m.cell = c.shared.cell ∧
      m.count = c.shared.count)
    (holds : Holds m p [] 0) (guards : ∀ o, m.guards o ⊆ c.shared.guards o)
    (ledger : Ledger m (everything own))
    (checks : 1000 ≤ m.count → p.isChecking = true ∨ (1000 ≤ c.shared.count ∧
      (c.pc i).isChecking = false)) :
    Whole (c.move i m p) own (Function.update owes i 0) ∧ Passes c own own i m p := by
  obtain ⟨hhead, hnext, hcell, hcount⟩ := same
  refine h.step (fun _ _ => rfl) (fun s => ?_) ?_ (.inl (List.Subset.refl _))
    (fun x _ _ => ⟨congrFun hnext x, congrFun hcell x⟩) (fun x _ _ => congrFun hcell x)
    (fun _ o _ => guards o) ledger ?_ checks
  · rw [hhead, hnext]
    exact h.shard s
  · rwa [nothing.1]
  · rw [hcount, nothing.2]

/-- **A step keeps the invariant.** -/
theorem Whole.move (h : Whole c own owes) (moved : Next i c.shared (c.pc i) m p) :
    ∃ own' owes', Whole (c.move i m p) own' owes' ∧ Passes c own own' i m p := by
  have hnodup : (own (.inr i)).Nodup := Multiset.nodup_of_le (le_everything own _) h.ledger.nodup
  have hchecks := moved.checks
  cases (h.holds i).does hnodup moved with
  | works memory perm holds counts frame =>
      subst memory
      exact ⟨_, _, h.works perm holds counts frame hchecks⟩
  | makes memory once free nothing holds quiet =>
      subst memory
      exact ⟨_, _, h.makes once free nothing holds quiet hchecks⟩
  | gives memory linked holds =>
      subst memory
      exact ⟨_, _, h.gives linked holds hchecks⟩
  | takes memory holds quiet =>
      subst memory
      exact ⟨_, _, h.takes holds quiet hchecks⟩
  | deletes memory object perm holds unseen =>
      subst memory
      exact ⟨_, _, h.deletes object perm holds hchecks⟩
  | links memory made nothing holds =>
      subst memory
      exact ⟨_, _, h.idles nothing ⟨rfl, rfl, rfl, rfl⟩ holds (fun _ => subset_rfl)
        (h.ledger.congr rfl rfl rfl rfl made) hchecks⟩
  | stores memory made nothing holds =>
      subst memory
      exact ⟨_, _, h.idles nothing ⟨rfl, rfl, rfl, rfl⟩ holds
        (Hazards.store_guards_subset _ _) (h.ledger.store made _) hchecks⟩

/-- **The invariant of every run.** -/
theorem whole_of_reachable (h : Reachable Next (fun _ _ _ => True) new c) :
    ∃ own owes, Whole c own owes := by
  induction h with
  | start => exact ⟨_, _, whole_new⟩
  | step _ _ taken ih =>
      obtain ⟨own, owes, hwhole⟩ := ih
      obtain ⟨m, p, hmoved, rfl⟩ := taken
      obtain ⟨own', owes', hwhole', -⟩ := hwhole.move hmoved
      exact ⟨own', owes', hwhole'⟩

/-! ## What a collection knows -/

/-- **What the threads know of the guards** of the objects in their hands: a thread that loads the
pointers has those of the guards, or will come to them. -/
def Aware (c : Config ι Memory Place) (own : Fin kNumShards ⊕ ι → List ℕ) : Prop :=
  ∀ i, ∀ x ∈ own (.inr i), ∀ o, c.shared.cell x = some o → ∀ k ∈ c.shared.guards o,
    HolderList.Sees c.shared.nextHolder k o (c.pc i).list

/-- **A step keeps what is known.** -/
theorem Aware.move (h : Aware c own) (whole : Whole c own owes) {l : List ℕ}
    (chain : HolderList.Whole (list c) l) (moved : Next i c.shared (c.pc i) m p)
    {own' : Fin kNumShards ⊕ ι → List ℕ} (passes : Passes c own own' i m p) :
    Aware (c.move i m p) own' := by
  intro j x hx o ho k hk
  rcases passes.held j x hx o ho with ⟨hmem, hobject⟩ | ⟨rfl, hquiet⟩
  · have hguards := passes.guards x o hobject hk
    have hwaits := whole.ledger.waits (mem_everything.mpr ⟨_, hmem⟩) hobject
    obtain ⟨hmade, hptr⟩ := whole.ledger.guard hwaits hguards
    have hsees := h j x hmem o hobject k hguards
    rcases moved.list with hmoved | ⟨hlist, hplace⟩
    · have hstep := HolderList.Sees.move (r := j) hsees chain (chain.holders k hmade) hptr hmoved
      rwa [← Config.map_move] at hstep
    · have hnext : m.nextHolder = c.shared.nextHolder := congrArg HolderList.Memory.next hlist
      rw [Config.move_shared, hnext]
      by_cases hji : j = i
      · subst hji
        rwa [Config.move_pc_self, hplace]
      · rwa [Config.move_pc_of_ne c hji]
  · rw [Config.move_pc_self]
    exact HolderList.sees_of_not_isLoading hquiet

/-- **What is known in every run** in which the swings of the tail are apart. -/
theorem aware_of_reachable (h : Reachable Next Apart new c) :
    ∃ own owes, Whole c own owes ∧ Aware c own := by
  induction h with
  | start => exact ⟨_, _, whole_new, fun _ _ hx => absurd hx (List.not_mem_nil)⟩
  | @step c _ _ reached _ taken ih =>
      obtain ⟨own, owes, hwhole, haware⟩ := ih
      obtain ⟨m, p, hmoved, rfl⟩ := taken
      have hlist : Reachable HolderList.Next HolderList.Apart (list new) (list c) :=
        reached.map (fun _ _ _ _ _ => Next.list) fun _ _ _ => id
      obtain ⟨l, hchain⟩ := HolderList.whole_of_reachable hlist
      obtain ⟨own', owes', hwhole', hpasses⟩ := hwhole.move hmoved
      exact ⟨own', owes', hwhole', haware.move hwhole hchain hmoved hpasses⟩

/-! ## Results -/

omit [Fintype ι] in
theorem apart_of_linking (h : p.list.linking = none) : Apart c i (c.move i m p) := by
  unfold Apart list
  rw [Config.map_move]
  exact HolderList.apart_of_linking h

/-- A run: a holder is made and holds object 7. -/
theorem run_held : ∃ c : Config (Fin 2) Memory Place,
    Reachable Next Apart new c ∧ c.shared.ptr 1 = some 7 ∧ c.shared.nextHolder 0 = some 1 ∧
      c.shared.nextHolder 1 = none ∧ 7 ∉ c.shared.waiting ∧ c.shared.cell 3 = none ∧
      c.shared.count = 0 ∧ c.shared.freed = [] ∧ ∀ i, c.pc i = .idle := by
  have h₀ : Reachable Next Apart (new : Config (Fin 2) Memory Place) new := .start
  have h₁ := h₀.move 0 .makeHolder (apart_of_linking rfl)
  have h₂ := h₁.move 0 .loadTail (apart_of_linking rfl)
  have h₃ := h₂.move 0 (.casTail rfl) (by
    unfold Apart HolderList.Apart
    decide)
  have h₄ := h₃.move 0 .linkNext (apart_of_linking rfl)
  have h₅ := h₄.move 0 (.protect 1 (some 7) (by decide)) (apart_of_linking rfl)
  exact ⟨_, h₅, rfl, rfl, rfl, id, rfl, rfl, rfl, Fin.forall_fin_two.mpr ⟨rfl, rfl⟩⟩

/-- **The reclaimer keeps the rules of hazard pointers**, in every run in which the swings of the
tail are apart: a step leaves the holders and the retired objects alone, writes a holder, retires
an object that is not retired, or frees an object that is retired and that no holder has held
since then. -/
theorem refines_hazards (reached : Reachable Next Apart new c)
    (moved : Next i c.shared (c.pc i) m p) :
    (m.hazards = c.shared.hazards ∧ m.freed = c.shared.freed) ∨
      (HazardPointers.Step c.shared.hazards m.hazards ∧ (m.freed = c.shared.freed ∨
        ∃ o ∈ c.shared.waiting, c.shared.guards o = ∅ ∧ m.freed = o :: c.shared.freed)) := by
  obtain ⟨own, owes, h, haware⟩ := aware_of_reachable reached
  have hnodup : (own (.inr i)).Nodup := Multiset.nodup_of_le (le_everything own _) h.ledger.nodup
  cases (h.holds i).does hnodup moved with
  | works memory | gives memory | takes memory | links memory =>
      subst memory
      exact .inl ⟨rfl, rfl⟩
  | makes memory once =>
      subst memory
      exact .inr ⟨.retire once, .inl rfl⟩
  | @deletes node o nodes' memory object perm holds unseen =>
      subst memory
      have hin : node ∈ own (.inr i) := by simp [perm]
      have hwaits := h.ledger.waits (mem_everything.mpr ⟨_, hin⟩) object
      have hfree : c.shared.guards o = ∅ :=
        Set.eq_empty_iff_forall_notMem.mpr fun k hk =>
          unseen _ k (haware i node hin o object k hk)
      exact .inr ⟨.free hwaits hfree, .inr ⟨o, hwaits, hfree, rfl⟩⟩
  | stores memory =>
      subst memory
      exact .inr ⟨.store _ _, .inl rfl⟩

/-- **What a holder holds is not freed.**  When a holder holds an object that is not retired,
then in every run in which the holder keeps it, and in which the swings of the tail are apart, the
object is not freed, whoever retires it and whoever reclaims. -/
theorem protected_kept (reached : Reachable Next Apart new c) {k o : ℕ}
    (held : c.shared.ptr k = some o) (live : o ∉ c.shared.waiting) {c' : Config ι Memory Place}
    (run : Reachable Next (fun c i c' => Apart c i c' ∧ c'.shared.ptr k = some o) c c') :
    c'.shared.freed.count o = c.shared.freed.count o := by
  have hkept : c'.shared.hazards.Protects k o ∧
      c'.shared.freed.count o = c.shared.freed.count o := by
    induction run with
    | start => exact ⟨.of_notMem held live, rfl⟩
    | @step c' _ i run kept taken ih =>
        obtain ⟨hprotects, hcount⟩ := ih
        obtain ⟨m, p, hmoved, rfl⟩ := taken
        have hreached := reached.trans (run.mono fun _ _ _ kept => kept.1)
        rcases refines_hazards hreached hmoved with ⟨hhazards, hfreed⟩ | ⟨hstep, hfreed⟩
        · rw [Config.move_shared, hhazards, hfreed]
          exact ⟨hprotects, hcount⟩
        · refine ⟨hprotects.step hstep kept.2, ?_⟩
          rcases hfreed with hfreed | ⟨o', hwaits, hfree, hfreed⟩
          · rw [Config.move_shared, hfreed, hcount]
          · have hne : o' ≠ o := by
              rintro rfl
              exact hprotects.guards_ne_empty hwaits hfree
            rw [Config.move_shared, hfreed, List.count_cons_of_ne hne, hcount]
  exact hkept.2

section Runs

variable {c : Config (Fin 2) Memory Place}

/-- The other thread retires the object and puts its node on a list. -/
theorem run_retired (held : c.shared.ptr 1 = some 7) (live : 7 ∉ c.shared.waiting)
    (free : c.shared.cell 3 = none) (count : c.shared.count = 0) (idle : ∀ i, c.pc i = .idle) :
    ∃ c', Reachable Next (fun c i c' => Apart c i c' ∧ c'.shared.ptr 1 = some 7) c c' ∧
      c'.shared.retired = 7 :: c.shared.retired ∧ c'.shared.nextHolder = c.shared.nextHolder ∧
      c'.shared.cell 3 = some 7 ∧ c'.shared.head 0 = some 3 ∧ ∀ i, c'.pc i = .idle := by
  have r₀ : Reachable Next (fun c i c' => Apart c i c' ∧ c'.shared.ptr 1 = some 7) c c := .start
  have r₁ := r₀.moveAt 1 (idle 1) (.retire 7 live free) ⟨apart_of_linking rfl, held⟩
  have r₂ := r₁.moveAt 1 (Config.move_pc_self _ _ _ _) .pushLoad ⟨apart_of_linking rfl, held⟩
  have r₃ := r₂.moveAt 1 (Config.move_pc_self _ _ _ _) .pushNext ⟨apart_of_linking rfl, held⟩
  have r₄ := r₃.moveAt 1 (Config.move_pc_self _ _ _ _) (.pushCas rfl) ⟨apart_of_linking rfl, held⟩
  have r₅ := r₄.moveAt 1 (Config.move_pc_self _ _ _ _) .addOne ⟨apart_of_linking rfl, held⟩
  have r₆ := r₅.moveAt 1 (Config.move_pc_self _ _ _ _) .checkLoad
    ⟨apart_of_linking (by rw [list_checked]; rfl), held⟩
  refine ⟨_, r₆, rfl, rfl, rfl, rfl, fun i => ?_⟩
  by_cases hi : i = 1
  · subst hi
    rw [Config.move_pc_self]
    simp only [Config.move_shared, Memory.setHead, Memory.make, count]
    rfl
  · rw [Config.move_pc_of_ne _ hi, Config.move_pc_of_ne _ hi, Config.move_pc_of_ne _ hi,
      Config.move_pc_of_ne _ hi, Config.move_pc_of_ne _ hi, Config.move_pc_of_ne _ hi, idle i]

/-- The lists that are left are extracted. -/
theorem run_extracted (n : ℕ) : ∀ {c : Config (Fin 2) Memory Place} {untagged : List (Option ℕ)},
    untagged.length + n = kNumShards → c.pc 1 = .extract 0 untagged → c.shared.ptr 1 = some 7 →
    ∃ c' rest, Reachable Next (fun c i c' => Apart c i c' ∧ c'.shared.ptr 1 = some 7) c c' ∧
      (untagged ++ rest).length = kNumShards ∧ c'.pc 1 = .extract 0 (untagged ++ rest) ∧
      c'.shared.ptr = c.shared.ptr ∧ c'.shared.nextHolder = c.shared.nextHolder ∧
      c'.shared.cell = c.shared.cell := by
  induction n with
  | zero =>
      intro c untagged hlen hhere hheld
      exact ⟨c, [], .start, by simpa using hlen, by simpa using hhere, rfl, rfl, rfl⟩
  | succ n ih =>
      intro c untagged hlen hhere hheld
      have hlt : untagged.length < kNumShards := by omega
      have hlen' : (untagged ++ [c.shared.head ⟨untagged.length, hlt⟩]).length + n
          = kNumShards := by
        rw [List.length_append, List.length_singleton]
        omega
      have r₀ : Reachable Next (fun c i c' => Apart c i c' ∧ c'.shared.ptr 1 = some 7) c c := .start
      have r₁ := r₀.moveAt 1 hhere (.extract hlt) ⟨apart_of_linking rfl, hheld⟩
      obtain ⟨c', rest, hrun, hall, hhere', hptr, hnext, hcell⟩ :=
        ih hlen' (Config.move_pc_self c 1 (c.shared.setHead ⟨untagged.length, hlt⟩ none) _) hheld
      rw [List.append_assoc] at hall hhere'
      exact ⟨c', _, r₁.trans hrun, hall, hhere', hptr, hnext, hcell⟩

/-- The thread that has retired the object reclaims: it finds the object among the pointers. -/
theorem run_matched (held : c.shared.ptr 1 = some 7) (first : c.shared.nextHolder 0 = some 1)
    (last : c.shared.nextHolder 1 = none) (object : c.shared.cell 3 = some 7)
    (head : c.shared.head 0 = some 3) (idle : ∀ i, c.pc i = .idle) :
    ∃ c' w obj matched,
      Reachable Next (fun c i c' => Apart c i c' ∧ c'.shared.ptr 1 = some 7) c c' ∧
      c'.pc 1 = .matching w obj matched .new ∧ matched.head = some 3 := by
  have r₀ : Reachable Next (fun c i c' => Apart c i c' ∧ c'.shared.ptr 1 = some 7) c c := .start
  have r₁ := r₀.moveAt 1 (idle 1) .reclaim ⟨apart_of_linking rfl, held⟩
  obtain ⟨c₂, r₂, hhere₂, hptr₂, hnext₂, hcell₂⟩ : ∃ c₂ : Config (Fin 2) Memory Place,
      Reachable Next (fun c i c' => Apart c i c' ∧ c'.shared.ptr 1 = some 7) c c₂ ∧
      c₂.pc 1 = .extract 0 [some 3] ∧ c₂.shared.ptr = c.shared.ptr ∧
      c₂.shared.nextHolder = c.shared.nextHolder ∧ c₂.shared.cell = c.shared.cell := by
    refine ⟨_, r₁.moveAt 1 (Config.move_pc_self _ _ _ _) (.extract (by decide))
      ⟨apart_of_linking rfl, held⟩, ?_, rfl, rfl, rfl⟩
    rw [Config.move_pc_self, ← head]
    rfl
  obtain ⟨c', rest, hrun, hall, hhere, hptr, hnext, hcell⟩ :=
    run_extracted 7 rfl hhere₂ (hptr₂ ▸ held)
  rw [← hptr₂, ← hptr] at held
  rw [← hnext₂, ← hnext] at first last
  rw [← hcell₂, ← hcell] at object
  have r₃ := (r₂.trans hrun).moveAt 1 hhere (.extracted hall) ⟨by
    rw [if_neg (by simp)]
    exact apart_of_linking rfl, held⟩
  rw [if_neg (by simp)] at r₃
  have r₄ := r₃.moveAt 1 (Config.move_pc_self _ _ _ _) .loadHead
    ⟨by rw [Config.move_shared, first]; exact apart_of_linking rfl, held⟩
  simp only [Config.move_shared, first, visit, Config.move_move] at r₄
  have r₅ := r₄.moveAt 1 (Config.move_pc_self _ _ _ _) .loadPtr ⟨apart_of_linking rfl, held⟩
  have r₆ := r₅.moveAt 1 (Config.move_pc_self _ _ _ _) .loadNext
    ⟨by rw [Config.move_shared, Config.move_shared, last]; exact apart_of_linking rfl, held⟩
  simp only [Config.move_shared, last, held, visit, Config.move_move] at r₆
  have r₇ := r₆.moveAt 1 (Config.move_pc_self _ _ _ _) .matchReclaim
    ⟨apart_of_linking rfl, held⟩
  have r₈ := r₇.moveAt 1 (Config.move_pc_self _ _ _ _) (.found object (by simp))
    ⟨apart_of_linking rfl, held⟩
  exact ⟨_, _, _, _, r₈, Config.move_pc_self _ _ _ _, rfl⟩

end Runs

theorem protected_kept_matched : ∃ (c : Config (Fin 2) Memory Place) (w : Work) (obj : Option ℕ)
    (matched : LinkedList), c.shared.ptr 1 = some 7 ∧ c.pc 1 = .matching w obj matched .new ∧
      matched.head = some 3 ∧ c.shared.freed.count 7 = 0 := by
  obtain ⟨c, h, hheld, hfirst, hlast, hlive, hfree, hcount, hfreed, hidle⟩ := run_held
  obtain ⟨c₁, hrun₁, -, hnext, hobject, hhead, hidle₁⟩ := run_retired hheld hlive hfree hcount hidle
  have hheld₁ : c₁.shared.ptr 1 = some 7 := by
    cases hrun₁ with
    | start => exact hheld
    | step _ kept _ => exact kept.2
  obtain ⟨c₂, w, obj, matched, hrun₂, hhere, hmatched⟩ := run_matched hheld₁
    (by rw [hnext, hfirst]) (by rw [hnext, hlast]) hobject hhead hidle₁
  refine ⟨c₂, w, obj, matched, ?_, hhere, hmatched, ?_⟩
  · cases hrun₂ with
    | start => exact hheld₁
    | step _ kept _ => exact kept.2
  · rw [protected_kept h hheld hlive (hrun₁.trans hrun₂), hfreed]
    rfl

/-- The pointers through which the next step goes: it reads or writes a member of the node, or
deletes it. -/
def Place.touches : Place → List (Option ℕ)
  | .pushNext node _ => [some node]
  | .matching _ obj matched noMatch =>
      if obj = none then [] else obj :: [matched.tail, noMatch.tail].filter (· ≠ none)
  | .reclaimObj _ obj _ => if obj = none then [] else [obj]
  | .splice w matched =>
      if matched.head = none ∨ w.notReclaimed.head = none then [] else [w.notReclaimed.tail]
  | .listNext w _ => [w.notReclaimed.tail]
  | _ => []

/-- The tail of a list in hand is in hand. -/
theorem LinkedList.Is.tail_mem {next : ℕ → Option ℕ} {l : LinkedList} {nodes : List ℕ}
    (h : l.Is next nodes) (ne : l.tail ≠ none) : ∃ x ∈ nodes, l.tail = some x := by
  obtain ⟨x, hx⟩ := Option.ne_none_iff_exists'.mp ne
  exact ⟨x, List.mem_of_getLast? (h.tail.symm.trans hx), hx⟩

/-- What a place touches is in hand. -/
theorem Holds.touches {nodes : List ℕ} {owed : ℤ} (h : Holds m p nodes owed) {ptr : Option ℕ}
    (touched : ptr ∈ p.touches) : ∃ x ∈ nodes, ptr = some x := by
  cases h with
  | @pushNext node => exact ⟨node, by simp, by simpa [Place.touches] using touched⟩
  | @matching w obj matched noMatch l l₁ l₂ l₃ nodes first matched_is noMatch_is =>
      cases obj with
      | none => simp [Place.touches] at touched
      | some y =>
          obtain ⟨rest, rfl, -⟩ := first.of_some
          simp only [Place.touches, reduceCtorEq, if_false, List.mem_cons, List.mem_filter,
            List.not_mem_nil, or_false, decide_eq_true_eq] at touched
          rcases touched with rfl | ⟨rfl | rfl, hne⟩
          · exact ⟨y, by simp, rfl⟩
          · obtain ⟨x, hx, hptr⟩ := matched_is.tail_mem hne
            exact ⟨x, by simp [hx], hptr⟩
          · obtain ⟨x, hx, hptr⟩ := noMatch_is.tail_mem hne
            exact ⟨x, by simp [hx], hptr⟩
  | @reclaimObj w obj matched l l₁ l₃ nodes first =>
      cases obj with
      | none => simp [Place.touches] at touched
      | some y =>
          obtain ⟨rest, rfl, -⟩ := first.of_some
          exact ⟨y, by simp, by simpa [Place.touches] using touched⟩
  | splice matched_is notReclaimed lists =>
      rw [Place.touches] at touched
      split at touched
      · simp at touched
      · rename_i hnonempty
        obtain ⟨y, hy⟩ := Option.ne_none_iff_exists'.mp (not_or.mp hnonempty).2
        obtain ⟨rest, last, rfl, htail⟩ := notReclaimed.eq_append hy
        exact ⟨last, by simp, by simpa [htail] using touched⟩
  | @listNext w oldval other rest last linked tail =>
      exact ⟨last, by simp, by simpa [Place.touches, tail] using touched⟩
  | _ => simp [Place.touches] at touched

/-- **No node is touched that is not allocated**, and none is freed twice or lost.  In every run,
no step goes through a null pointer or to a node that is not allocated, also when addresses are
used again; what was freed was retired, as often at least.  When all threads are at rest, the eight
heads lead through different nodes, one for every object that was retired and not freed; the
counter is their number, and it is below the threshold. -/
theorem nodes_kept (reached : Reachable Next (fun _ _ _ => True) new c) :
    (∀ i, ∀ ptr ∈ (c.pc i).touches, ∃ x, ptr = some x ∧ c.shared.cell x ≠ none) ∧
      (c.shared.freed : Multiset ℕ) ≤ c.shared.retired ∧
      ((∀ i, c.pc i = .idle) → ∃ lists : Fin kNumShards → List ℕ,
        (∀ s, Linked c.shared.next (c.shared.head s) (lists s) none) ∧
        (everything lists).Nodup ∧
        (c.shared.retired : Multiset ℕ)
          = c.shared.freed + (everything lists).filterMap c.shared.cell ∧
        c.shared.count = (everything lists).card ∧ c.shared.count < 1000) := by
  obtain ⟨own, owes, h⟩ := whole_of_reachable reached
  refine ⟨fun i ptr hptr => ?_, ?_, fun hidle => ⟨fun s => own (.inl s), h.shard, ?_⟩⟩
  · obtain ⟨x, hx, rfl⟩ := (h.holds i).touches hptr
    exact ⟨x, rfl, (h.ledger.live x).mp (mem_everything.mpr ⟨_, hx⟩)⟩
  · rw [h.ledger.objects]
    exact Multiset.le_add_right _ _
  · have hnothing : ∀ i, own (.inr i) = [] ∧ owes i = 0 := by
      intro i
      have hholds := h.holds i
      rw [hidle i] at hholds
      generalize own (.inr i) = nodes at hholds ⊢
      generalize owes i = owed at hholds ⊢
      cases hholds
      exact ⟨rfl, rfl⟩
    have hall : everything (fun s => own (.inl s)) = everything own := by
      unfold everything
      rw [Fintype.sum_sum_type]
      simp [hnothing]
    have hcount := h.count
    simp only [hnothing, Finset.sum_const_zero, add_zero] at hcount
    rw [hall]
    refine ⟨h.ledger.nodup, h.ledger.objects, hcount, ?_⟩
    by_contra hge
    obtain ⟨i, hi⟩ := h.checks (not_lt.mp hge)
    rw [hidle i] at hi
    exact absurd hi (by simp [Place.isChecking])

theorem nodes_kept_retired : ∃ c : Config (Fin 2) Memory Place, (∀ i, c.pc i = .idle) ∧
    7 ∈ c.shared.retired ∧ c.shared.count < 1000 := by
  obtain ⟨c, h, hheld, -, -, hlive, hfree, hcount, -, hidle⟩ := run_held
  obtain ⟨c', hrun, hretired, -, -, -, hidle'⟩ := run_retired hheld hlive hfree hcount hidle
  have hreached := (h.mono fun _ _ _ _ => trivial).trans (hrun.mono fun _ _ _ _ => trivial)
  obtain ⟨-, -, -, -, -, hbelow⟩ := (nodes_kept hreached).2.2 hidle'
  exact ⟨c', hidle', by simp [hretired], hbelow⟩

end Invariant

end Reclaimer

end Lsmkv
