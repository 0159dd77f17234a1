import Lsmkv.ConcurrentQueue
import Lsmkv.Executor

/-!
# The queue of the executor

In `Lsmkv.Executor` a task is pushed and popped in one step.  Here the calls of `push` and `pop` are
those of `concurrent_queue`, step by step as in `Lsmkv.ConcurrentQueue`, and every run is simulated
by a run of the executor (`Executor.OverQueue.simulated`): a task is pushed when its node is linked,
and it is popped when `head_` is swung to its node.

`pop` returns false to a thread that has loaded a null pointer from the node of `head_`.  But a
thread that pops has acquired a token, so there is a task for it from then on, and it loads no null
pointer (`Executor.OverQueue.next_ne_none`).
-/

namespace Lsmkv

namespace Executor

namespace OverQueue

open Interleaving

/-! ## The steps -/

/-- The executor with its queue. -/
structure Shared (n : ℕ) (T : Type) where
  stop : Bool
  sem : ℕ
  queue : ConcurrentQueue.Memory T
  gone : Fin n → Bool
  released : ℕ
  finished : List T

/-- The next step of a thread: outside of the queue, in the `push` of `submit`, which was called
by a task or by somebody else, or in `pop`. -/
inductive Place (T : Type)
  | outside (p : Executor.Place T)
  | pushing (caller : Option T) (q : ConcurrentQueue.Place)
  | popping (q : ConcurrentQueue.Place)

section Steps

variable {n : ℕ} {κ T : Type}

/-- Where `submit` is called. -/
def before : Option T → Executor.Place T
  | none => .idle
  | some t => .run t

/-- `submit` behind its push. -/
def behind : Option T → Executor.Place T
  | none => .post
  | some t => .runPost t

/-- The thread is in a call of the queue. -/
def isInside : ConcurrentQueue.Place → Bool
  | .idle => false
  | _ => true

/-- `push` goes on or returns. -/
def pushOn (caller : Option T) : ConcurrentQueue.Place → Place T
  | .idle => .outside (behind caller)
  | q => .pushing caller q

/-- **One step of a thread.** -/
inductive Next : Thread n κ → Shared n T → Place T → Shared n T → Place T → Prop
  | submit {k : κ} {m : Shared n T} (v : T) :
      Next (.client k) m (.outside .idle) { m with queue := m.queue.make v }
        (.pushing none (.getNode (.push m.queue.nodes)))
  | runSubmit {i : Fin n} {m : Shared n T} {t : T} (v : T) :
      Next (.worker i) m (.outside (.run t)) { m with queue := m.queue.make v }
        (.pushing (some t) (.getNode (.push m.queue.nodes)))
  | push {x : Thread n κ} {m : Shared n T} {caller : Option T} {q q' : ConcurrentQueue.Place}
      {queue' : ConcurrentQueue.Memory T} (inside : isInside q = true)
      (moved : ConcurrentQueue.Next x m.queue q queue' q') :
      Next x m (.pushing caller q) { m with queue := queue' } (pushOn caller q')
  | post {k : κ} {m : Shared n T} :
      Next (.client k) m (.outside .post) { m with sem := m.sem + 1 } (.outside .idle)
  | runPost {i : Fin n} {m : Shared n T} {t : T} :
      Next (.worker i) m (.outside (.runPost t)) { m with sem := m.sem + 1 } (.outside (.run t))
  | acquire {i : Fin n} {m : Shared n T} {k : ℕ} (token : m.sem = k + 1) :
      Next (.worker i) m (.outside .acquire) { m with sem := k } (.outside .testStop)
  | stops {i : Fin n} {m : Shared n T} (stop : m.stop = true) :
      Next (.worker i) m (.outside .testStop) { m with gone := Function.update m.gone i true }
        (.outside .exited)
  | goesOn {i : Fin n} {m : Shared n T} (stop : m.stop = false) :
      Next (.worker i) m (.outside .testStop) m (.outside .pop)
  | pop {i : Fin n} {m : Shared n T} :
      Next (.worker i) m (.outside .pop) m (.popping (.getNode .pop))
  | popGoesOn {i : Fin n} {m : Shared n T} {q q' : ConcurrentQueue.Place}
      {queue' : ConcurrentQueue.Memory T} (inside : isInside q = true) (goesOn : isInside q' = true)
      (moved : ConcurrentQueue.Next (.worker i : Thread n κ) m.queue q queue' q') :
      Next (.worker i) m (.popping q) { m with queue := queue' } (.popping q')
  /-- `pop` returns true, and the task runs. -/
  | popReturns {i : Fin n} {m : Shared n T} {node : ℕ} {t : T}
      (value : m.queue.data node = some t) :
      Next (.worker i) m (.popping (.popMove node)) { m with queue := m.queue.moveOut node }
        (.outside (.run t))
  /-- `pop` returns false. -/
  | popFails {i : Fin n} {m : Shared n T} {q : ConcurrentQueue.Place}
      {queue' : ConcurrentQueue.Memory T} (nothing : q.moving = none) (inside : isInside q = true)
      (moved : ConcurrentQueue.Next (.worker i : Thread n κ) m.queue q queue' .idle) :
      Next (.worker i) m (.popping q) { m with queue := queue' } (.outside .acquire)
  | finish {i : Fin n} {m : Shared n T} {t : T} :
      Next (.worker i) m (.outside (.run t)) { m with finished := m.finished ++ [t] }
        (.outside .acquire)
  | shutdown {m : Shared n T} :
      Next .owner m (.outside .running) { m with stop := true } (.outside .releaseAll)
  | releaseAll {m : Shared n T} :
      Next .owner m (.outside .releaseAll) { m with sem := m.sem + n, released := n }
        (.outside (.join 0))
  | join {m : Shared n T} {k : ℕ} (lt : k < n) (gone : m.gone ⟨k, lt⟩ = true) :
      Next .owner m (.outside (.join k)) m (.outside (.join (k + 1)))

/-- The executor when it is made. -/
def new : Config (Thread n κ) (Shared n T) (Place T) :=
  ⟨⟨false, 0, (ConcurrentQueue.new : Config (Thread n κ) _ _).shared, fun _ => false, 0, []⟩,
    fun x => .outside ((Executor.new : Config (Thread n κ) (Executor.Shared n T) _).pc x)⟩

/-- Where a thread is in the queue. -/
def Place.queue : Place T → ConcurrentQueue.Place
  | .outside _ => .idle
  | .pushing _ q | .popping q => q

/-- The queue, and where the threads are in it. -/
abbrev queue (c : Config (Thread n κ) (Shared n T) (Place T)) :
    Config (Thread n κ) (ConcurrentQueue.Memory T) ConcurrentQueue.Place :=
  c.map Shared.queue Place.queue

theorem pushOn_queue (caller : Option T) (q : ConcurrentQueue.Place) :
    (pushOn caller q).queue = q := by
  cases q <;> rfl

/-- A `push` that has its node goes on. -/
theorem pushOn_of_own {caller : Option T} {q : ConcurrentQueue.Place} {node : ℕ}
    (own : q.own = some node) : pushOn caller q = .pushing caller q := by
  cases q with
  | idle => cases own
  | _ => rfl

/-- **A step of the executor is one of the queue**, or leaves it alone. -/
theorem Next.queue {x : Thread n κ} {m m' : Shared n T} {p p' : Place T} (h : Next x m p m' p') :
    ConcurrentQueue.Next x m.queue p.queue m'.queue p'.queue ∨
      (m'.queue = m.queue ∧ p'.queue = p.queue) := by
  cases h with
  | submit v => exact .inl (.push v)
  | runSubmit v => exact .inl (.push v)
  | push inside moved =>
      rw [pushOn_queue]
      exact .inl moved
  | pop => exact .inl .pop
  | popGoesOn inside goesOn moved => exact .inl moved
  | popReturns value => exact .inl .popMove
  | popFails nothing inside moved => exact .inl moved
  | _ => exact .inr ⟨rfl, rfl⟩

end Steps

/-! ## The tasks in the queue -/

section Tasks

variable {n : ℕ} {T : Type} {m : ConcurrentQueue.Memory T}

/-- The executor with its queue as a list: the tasks of the nodes that were linked and not
popped. -/
def Shared.tasks (m : Shared n T) : Executor.Shared n T where
  stop := m.stop
  sem := m.sem
  queue := (m.queue.linked.drop m.queue.popped.length).filterMap m.queue.given
  gone := m.gone
  released := m.released
  submitted := m.queue.linked.filterMap m.queue.given
  started := m.queue.popped.filterMap m.queue.given
  finished := m.finished

theorem tasks_make (m : Shared n T) (shape : ConcurrentQueue.Shape m.queue) (v : T) :
    Shared.tasks { m with queue := m.queue.make v } = m.tasks := by
  have hsame : ∀ l : List ℕ, l ⊆ m.queue.linked →
      l.filterMap (m.queue.make v).given = l.filterMap m.queue.given := by
    intro l hl
    refine List.filterMap_congr fun x hx => Function.update_of_ne ?_ _ _
    exact (shape.allocated x (List.mem_cons_of_mem _ (hl hx))).ne
  simp only [Shared.tasks, ConcurrentQueue.Memory.make] at hsame ⊢
  rw [hsame _ (List.drop_subset _ _), hsame _ (List.Subset.refl _), hsame _ shape.popped.subset]

theorem tasks_link (m : Shared n T) (shape : ConcurrentQueue.Shape m.queue) {node tail : ℕ} {v : T}
    (given : m.queue.given node = some v) :
    Shared.tasks { m with queue := m.queue.link node tail } = m.tasks.push v := by
  have hdrop : (m.queue.linked ++ [node]).drop m.queue.popped.length
      = m.queue.linked.drop m.queue.popped.length ++ [node] :=
    List.drop_append_of_le_length shape.popped.length_le
  simp [Shared.tasks, Executor.Shared.push, ConcurrentQueue.Memory.link, hdrop, given]

theorem tasks_swing (m : Shared n T) (shape : ConcurrentQueue.Shape m.queue) {y : ℕ}
    (next : m.queue.next m.queue.head = some y) {v : T} (given : m.queue.given y = some v) :
    ∃ rest, m.tasks.queue = v :: rest ∧ Shared.tasks { m with queue := m.queue.swing y }
      = { m.tasks with queue := rest, started := m.tasks.started ++ [v] } := by
  have hfirst := shape.chain.succ shape.head next
  rw [List.getElem?_cons_succ] at hfirst
  obtain ⟨hlt, hget⟩ := List.getElem?_eq_some_iff.mp hfirst
  have hdrop := List.drop_eq_getElem_cons hlt
  rw [hget] at hdrop
  refine ⟨(m.queue.linked.drop (m.queue.popped.length + 1)).filterMap m.queue.given, ?_, ?_⟩
  · simp [Shared.tasks, hdrop, given]
  · simp [Shared.tasks, ConcurrentQueue.Memory.swing, given]

/-- Where a `pop` is that is going to find a task: it has not loaded a null pointer. -/
def Pops : ConcurrentQueue.Place → Prop
  | .getNode .pop | .getNodeAgain .pop _ | .getNext .pop _ | .popHelp _ _ | .popNext _ _
  | .popSwing _ _ => True
  | .getNextAgain .pop _ next | .check .pop _ next | .popTail _ next => next ≠ none
  | _ => False

/-- A `pop` of a queue that is not empty **loads no null pointer**. -/
theorem next_ne_none (shape : ConcurrentQueue.Shape m) (room : m.popped.length < m.linked.length)
    {node : ℕ} (passed : node ∈ 0 :: m.popped) : m.next node ≠ none := by
  obtain ⟨i, hi, hat⟩ := shape.index_of_popped passed
  exact shape.chain.next_ne_none hat (hi.trans_lt room)

/-- **A `pop` goes on**, while there is a task for it, up to its compare-exchange. -/
theorem Pops.step {x : Thread n κ} {m' : ConcurrentQueue.Memory T} {q q' : ConcurrentQueue.Place}
    (h : Pops q) (knows : ConcurrentQueue.Local m q) (shape : ConcurrentQueue.Shape m)
    (room : m.popped.length < m.linked.length) (moved : ConcurrentQueue.Next x m q m' q') :
    Pops q' ∨ ∃ y, q' = .popMove y := by
  cases moved with
  | @getNode op =>
      cases op with
      | push node => exact absurd h id
      | pop => exact .inl trivial
  | @getNodeAgain op tempNode =>
      cases op with
      | push node => exact absurd h id
      | pop =>
          split
          · exact .inl trivial
          · exact .inl trivial
  | @getNext op node =>
      cases op with
      | push node => exact absurd h id
      | pop => exact .inl (next_ne_none shape room knows)
  | @getNextAgain op node tempNext =>
      cases op with
      | push node => exact absurd h id
      | pop =>
          split
          · exact .inl h
          · exact .inl trivial
  | checkPop =>
      split
      · exact .inl h
      · exact .inl trivial
  | @popTail head next =>
      split
      · cases next with
        | none => exact absurd rfl h
        | some y => exact .inl trivial
      · exact .inl trivial
  | popNext =>
      split
      · exact .inl trivial
      · exact .inl trivial
  | popHelp | popHelpFails | popSwingFails => exact .inl trivial
  | popSwing => exact .inr ⟨_, rfl⟩
  | _ => exact absurd h id

theorem Pops.moving {q : ConcurrentQueue.Place} (h : Pops q) : q.moving = none := by
  cases q with
  | popMove node => exact absurd h id
  | _ => rfl

theorem Pops.isInside {q : ConcurrentQueue.Place} (h : Pops q) : isInside q = true := by
  cases q with
  | idle => exact absurd h id
  | _ => rfl

end Tasks

/-! ## The simulation -/

section Simulation

variable {n : ℕ} {κ T : Type}

/-- **Where a thread is in the executor** that pushes and pops in one step. -/
inductive Follows (queue : ConcurrentQueue.Memory T) : Place T → Executor.Place T → Prop
  | outside {p : Executor.Place T} : Follows queue (.outside p) p
  | pushing {caller : Option T} {q : ConcurrentQueue.Place} {node : ℕ} (own : q.own = some node) :
      Follows queue (.pushing caller q) (before caller)
  | pushed {caller : Option T} {node tail : ℕ} :
      Follows queue (.pushing caller (.pushSwing node tail)) (behind caller)
  | popping {q : ConcurrentQueue.Place} (pops : Pops q) : Follows queue (.popping q) .pop
  | popped {node : ℕ} {t : T} (given : queue.given node = some t) :
      Follows queue (.popping (.popMove node)) (.run t)

theorem Follows.congr {queue queue' : ConcurrentQueue.Memory T} {p : Place T}
    {p' : Executor.Place T} (h : Follows queue p p')
    (same : ∀ node, p.queue.moving = some node → queue'.given node = queue.given node) :
    Follows queue' p p' := by
  cases h with
  | outside => exact .outside
  | pushing own => exact .pushing own
  | pushed => exact .pushed
  | popping pops => exact .popping pops
  | popped given => exact .popped ((same _ rfl).trans given)

/-- **A state of the executor for one with its queue.** -/
structure Simulates (c : Config (Thread n κ) (Shared n T) (Place T))
    (a : Config (Thread n κ) (Executor.Shared n T) (Executor.Place T)) : Prop where
  shared : a.shared = c.shared.tasks
  follows : ∀ x, Follows c.shared.queue (c.pc x) (a.pc x)

theorem simulates_new : Simulates (new : Config (Thread n κ) (Shared n T) (Place T)) Executor.new :=
  ⟨rfl, fun _ => .outside⟩

variable [DecidableEq κ] {c : Config (Thread n κ) (Shared n T) (Place T)}
  {a : Config (Thread n κ) (Executor.Shared n T) (Executor.Place T)} {x : Thread n κ}
  {m : Shared n T} {p : Place T}

/-- **The queue of the executor is one.** -/
theorem invariant_of_reachable (reached : Reachable Next (fun _ _ _ => True) new c) :
    ConcurrentQueue.Whole (queue c) ∧
      ∀ x, ConcurrentQueue.Local c.shared.queue (c.pc x).queue := by
  have hqueue : Reachable ConcurrentQueue.Next (fun _ _ _ => True) (queue new) (queue c) :=
    reached.map (fun _ _ _ _ _ => Next.queue) fun _ _ _ _ => trivial
  exact ConcurrentQueue.invariant_of_reachable hqueue

omit [DecidableEq κ] in
/-- A step of the queue leaves the tasks of the nodes that exist. -/
theorem given_of_next {queue queue' : ConcurrentQueue.Memory T} {q q' : ConcurrentQueue.Place}
    (moved : ConcurrentQueue.Next x queue q queue' q') {node : ℕ} (lt : node < queue.nodes) :
    queue'.given node = queue.given node := by
  cases moved with
  | push v => exact Function.update_of_ne lt.ne _ _
  | _ => rfl

/-- **The states behind a step**, by the state of the thread that moves. -/
theorem Simulates.step (h : Simulates c a) (whole : ConcurrentQueue.Whole (queue c))
    (moved : Next x c.shared (c.pc x) m p) {s : Executor.Shared n T} {p' : Executor.Place T}
    (shared : s = m.tasks) (follows : Follows m.queue p p') :
    Simulates (c.move x m p) (a.move x s p') := by
  refine ⟨shared, fun y => ?_⟩
  by_cases hyx : y = x
  · subst hyx
    rwa [Config.move_pc_self, Config.move_pc_self]
  · rw [Config.move_pc_of_ne c hyx, Config.move_pc_of_ne a hyx]
    refine (h.follows y).congr fun node hnode => ?_
    have hlinked := whole.shape.popped.subset (whole.moving y node hnode).1
    have hlt := whole.shape.allocated node (List.mem_cons_of_mem _ hlinked)
    rcases moved.queue with hmoved | ⟨hsame, -⟩
    · exact given_of_next hmoved hlt
    · rw [Config.move_shared, hsame]

omit [DecidableEq κ] in
/-- `submit` pushes the task. -/
theorem next_submit {s : Executor.Shared n T} {caller : Option T}
    (own : Assertion x s (before caller)) (v : T) :
    Executor.Next x s (before caller) (s.push v) (behind caller) := by
  cases x with
  | worker i =>
      cases caller with
      | none => exact absurd own.2 id
      | some t => exact .runSubmit v
  | client k =>
      cases caller with
      | none => exact .submit v
      | some t => exact absurd own (by simp [Assertion, before])
  | owner =>
      refine absurd own ?_
      cases caller <;> simp [Assertion, before]

omit [DecidableEq κ] in
/-- **A step of `push`** is the push of the task, or nothing. -/
theorem Simulates.push (h : Simulates c a) (whole : ConcurrentQueue.Whole (queue c))
    (own : Assertion x a.shared (a.pc x)) {caller : Option T} {q q' : ConcurrentQueue.Place}
    {queue' : ConcurrentQueue.Memory T} (here : c.pc x = .pushing caller q)
    (inside : isInside q = true) (moved : ConcurrentQueue.Next x c.shared.queue q queue' q') :
    ∃ s p', (Executor.Next x a.shared (a.pc x) s p' ∨ (s = a.shared ∧ p' = a.pc x)) ∧
      s = Shared.tasks { c.shared with queue := queue' } ∧
      Follows queue' (pushOn caller q') p' := by
  have hfollows := h.follows x
  rw [here] at hfollows
  generalize hpc : a.pc x = p₀ at *
  cases hfollows with
  | pushed =>
      cases moved with
      | pushSwing | pushSwingFails => exact ⟨a.shared, _, .inr ⟨rfl, rfl⟩, h.shared, .outside⟩
  | @pushing _ _ node hown =>
      -- a step that links no node leaves the tasks as they are
      have hstays : queue'.linked = c.shared.queue.linked → queue'.popped = c.shared.queue.popped →
          queue'.given = c.shared.queue.given → q'.own = q.own →
          ∃ s p', (Executor.Next x a.shared (before caller) s p' ∨
              (s = a.shared ∧ p' = before caller)) ∧
            s = Shared.tasks { c.shared with queue := queue' } ∧
            Follows queue' (pushOn caller q') p' := by
        intro hlinked hpopped hgiven hsame
        refine ⟨a.shared, _, .inr ⟨rfl, rfl⟩, ?_, ?_⟩
        · simp only [h.shared, Shared.tasks, hlinked, hpopped, hgiven]
        · rw [pushOn_of_own (hsame.trans hown)]
          exact .pushing (hsame.trans hown)
      rcases moved.cases with ⟨v, -, rfl, -⟩ | ⟨node, tail, rfl, -, rfl, rfl⟩ |
        ⟨y, rfl, -, hsame, -⟩ | ⟨y, -, rfl, -⟩ | ⟨y, -, rfl, -⟩ | ⟨rfl, hsame, -⟩
      · cases inside
      · obtain ⟨-, -, -, -, hne⟩ := whole.own x node (by
          show (c.pc x).queue.own = some node
          rw [here]
          rfl)
        -- the link makes the node one of the queue: here the task is submitted
        obtain ⟨v, hv⟩ := Option.ne_none_iff_exists'.mp hne
        refine ⟨_, _, .inl (next_submit own v), ?_, .pushed⟩
        rw [h.shared]
        exact (tasks_link c.shared whole.shape hv).symm
      · exact hstays rfl rfl rfl hsame
      · cases hown
      · cases hown
      · exact hstays rfl rfl rfl hsame

omit [DecidableEq κ] in
/-- **A step of `pop`** is the pop of the task, or nothing. -/
theorem Simulates.pop (h : Simulates c a) (whole : ConcurrentQueue.Whole (queue c))
    (knows : ConcurrentQueue.Local c.shared.queue (c.pc x).queue) {q q' : ConcurrentQueue.Place}
    (room : a.pc x = .pop → c.shared.queue.popped.length < c.shared.queue.linked.length)
    {i : Fin n} (worker : x = .worker i)
    {queue' : ConcurrentQueue.Memory T} (here : c.pc x = .popping q)
    (moved : ConcurrentQueue.Next x c.shared.queue q queue' q') :
    (∃ y, q = .popMove y ∧ q' = .idle) ∨ ∃ s p',
      (Executor.Next x a.shared (a.pc x) s p' ∨ (s = a.shared ∧ p' = a.pc x)) ∧
        s = Shared.tasks { c.shared with queue := queue' } ∧ Follows queue' (.popping q') p' ∧
        isInside q' = true := by
  have hfollows := h.follows x
  rw [here] at hfollows knows
  generalize hpc : a.pc x = p₀ at *
  cases hfollows with
  | popped given =>
      cases moved with
      | popMove => exact .inl ⟨_, rfl, rfl⟩
  | popping pops =>
      refine .inr ?_
      have hstep := pops.step knows whole.shape (room rfl) moved
      -- a step that moves no end leaves the tasks as they are
      have hstays : queue'.linked = c.shared.queue.linked → queue'.popped = c.shared.queue.popped →
          queue'.given = c.shared.queue.given → q'.moving = q.moving →
          ∃ s p', (Executor.Next x a.shared .pop s p' ∨ (s = a.shared ∧ p' = .pop)) ∧
            s = Shared.tasks { c.shared with queue := queue' } ∧ Follows queue' (.popping q') p' ∧
            isInside q' = true := by
        intro hlinked hpopped hgiven hsame
        rcases hstep with hpops | ⟨y, rfl⟩
        · refine ⟨a.shared, _, .inr ⟨rfl, rfl⟩, ?_, .popping hpops, hpops.isInside⟩
          simp only [h.shared, Shared.tasks, hlinked, hpopped, hgiven]
        · rw [pops.moving] at hsame
          cases hsame
      rcases moved.cases with ⟨v, -, rfl, -⟩ | ⟨node, tail, -, -, rfl, -⟩ |
        ⟨y, rfl, -, -, hsame⟩ | ⟨y, rfl, rfl, rfl⟩ | ⟨y, -, rfl, -⟩ | ⟨rfl, -, hsame⟩
      · exact absurd pops id
      · exact absurd pops id
      · exact hstays rfl rfl rfl hsame
      -- `head_` moves past a node: its task is the first one, and here it is taken
      · obtain ⟨-, y', hy', hnext⟩ := knows
        obtain rfl := Option.some.inj hy'
        obtain ⟨hlinked, hout⟩ := whole.shape.next_notMem hnext
        obtain ⟨t, ht⟩ := Option.ne_none_iff_exists'.mp (whole.waiting y hlinked hout).2
        obtain ⟨rest, hfront, htasks⟩ := tasks_swing c.shared whole.shape hnext ht
        subst worker
        refine ⟨_, _, .inl (.pop (h.shared ▸ hfront)), ?_, .popped ht, rfl⟩
        rw [htasks, h.shared]
      · exact absurd pops id
      · exact hstays rfl rfl rfl hsame

omit [DecidableEq κ] in
/-- A thread that pops has a task to pop. -/
theorem Simulates.room (h : Simulates c a) [Fintype κ] (whole : Executor.Whole a)
    (here : a.pc x = .pop) : c.shared.queue.popped.length < c.shared.queue.linked.length := by
  have hne := whole.queue_ne_nil here
  rw [h.shared] at hne
  by_contra hle
  refine hne ?_
  rw [Shared.tasks, List.drop_of_length_le (not_lt.mp hle), List.filterMap_nil]

/-- **A step is simulated** by one of the executor, or by none. -/
theorem Simulates.move [Fintype κ] (h : Simulates c a) (whole : ConcurrentQueue.Whole (queue c))
    (knows : ConcurrentQueue.Local c.shared.queue (c.pc x).queue) (whole' : Executor.Whole a)
    (own : Assertion x a.shared (a.pc x)) (moved : Next x c.shared (c.pc x) m p) :
    ∃ s p', (Executor.Next x a.shared (a.pc x) s p' ∨ (s = a.shared ∧ p' = a.pc x)) ∧
      Simulates (c.move x m p) (a.move x s p') := by
  suffices hstep : ∃ s p', (Executor.Next x a.shared (a.pc x) s p' ∨
      (s = a.shared ∧ p' = a.pc x)) ∧ s = m.tasks ∧ Follows m.queue p p' by
    obtain ⟨s, p', hmoved, hshared, hfollows⟩ := hstep
    exact ⟨s, p', hmoved, h.step whole moved hshared hfollows⟩
  have hfollows := h.follows x
  generalize hhere : c.pc x = p₀ at moved hfollows
  cases moved with
  | push inside moved => exact h.push whole own hhere inside moved
  | popGoesOn inside goesOn moved =>
      rcases h.pop whole knows (h.room whole') rfl hhere moved with
        ⟨y, -, rfl⟩ | ⟨s, p', hmoved, hshared, hfollows', -⟩
      · cases goesOn
      · exact ⟨s, p', hmoved, hshared, hfollows'⟩
  -- a worker has a token, so there is a task for it and the pop does not fail
  | popFails nothing inside moved =>
      rcases h.pop whole knows (h.room whole') rfl hhere moved with
        ⟨y, rfl, -⟩ | ⟨s, p', -, -, -, hinside⟩
      · cases nothing
      · cases hinside
  | popReturns value =>
      generalize hpc : a.pc _ = p₁ at *
      cases hfollows with
      | popping pops => exact absurd pops id
      | popped given =>
          have hfilled := (whole.moving _ _ (by
            show (c.pc _).queue.moving = some _
            rw [hhere]
            rfl)).2.1
          obtain rfl := Option.some.inj (value.symm.trans (hfilled.1.trans given))
          exact ⟨a.shared, _, .inr ⟨rfl, rfl⟩, h.shared, .outside⟩
  -- the calls of the queue begin, and the abstract thread has not moved yet
  | submit v | runSubmit v =>
      generalize hpc : a.pc _ = p₁ at hfollows ⊢
      cases hfollows
      refine ⟨a.shared, _, .inr ⟨rfl, rfl⟩, ?_, .pushing rfl⟩
      rw [h.shared]
      exact (tasks_make c.shared whole.shape v).symm
  | pop =>
      generalize hpc : a.pc _ = p₁ at hfollows ⊢
      cases hfollows
      exact ⟨a.shared, _, .inr ⟨rfl, rfl⟩, h.shared, .popping trivial⟩
  -- the other steps are those of the executor itself
  | acquire token =>
      generalize hpc : a.pc _ = p₁ at hfollows ⊢
      cases hfollows
      exact ⟨_, _, .inl (.acquire (by rw [h.shared]; exact token)), by rw [h.shared]; rfl, .outside⟩
  | stops stop =>
      generalize hpc : a.pc _ = p₁ at hfollows ⊢
      cases hfollows
      exact ⟨_, _, .inl (.stops (by rw [h.shared]; exact stop)), by rw [h.shared]; rfl, .outside⟩
  | goesOn stop =>
      generalize hpc : a.pc _ = p₁ at hfollows ⊢
      cases hfollows
      exact ⟨_, _, .inl (.goesOn (by rw [h.shared]; exact stop)), h.shared, .outside⟩
  | join lt gone =>
      generalize hpc : a.pc _ = p₁ at hfollows ⊢
      cases hfollows
      exact ⟨_, _, .inl (.join lt (by rw [h.shared]; exact gone)), h.shared, .outside⟩
  | post | runPost | finish | shutdown | releaseAll =>
      generalize hpc : a.pc _ = p₁ at hfollows ⊢
      cases hfollows
      exact ⟨_, _, .inl (by constructor), by rw [h.shared]; rfl, .outside⟩

/-- **The executor with its queue is simulated** by the one that pushes and pops in one step. -/
theorem simulates_of_reachable [Fintype κ] (reached : Reachable Next (fun _ _ _ => True) new c) :
    ∃ a, Reachable Executor.Next (fun _ _ _ => True) Executor.new a ∧ Simulates c a := by
  induction reached with
  | start => exact ⟨_, .start, simulates_new⟩
  | @step c c' x reached _ taken ih =>
      obtain ⟨a, hreached, hsimulates⟩ := ih
      obtain ⟨m, p, hmoved, rfl⟩ := taken
      obtain ⟨hwhole, hlocal⟩ := invariant_of_reachable reached
      obtain ⟨hwhole', hown⟩ := whole_of_reachable hreached
      obtain ⟨s, p', hstep, hsimulates'⟩ :=
        hsimulates.move hwhole (hlocal x) hwhole' (hown x) hmoved
      refine ⟨_, ?_, hsimulates'⟩
      rcases hstep with hstep | ⟨rfl, rfl⟩
      · exact hreached.move x hstep trivial
      · rwa [Config.move_self]

/-- **The executor works over its queue.**  In every run, step by step through the queue: it is
simulated by a run of the executor that pushes and pops in one step, in which the same tasks are
pushed, popped and finished in the same order; `pop` returns true, with a task; and when all
threads are at rest and no token is left, all tasks that were pushed have been run. -/
theorem simulated [Fintype κ] (reached : Reachable Next (fun _ _ _ => True) new c) :
    (∃ a, Reachable Executor.Next (fun _ _ _ => True) Executor.new a ∧ Simulates c a) ∧
      (∀ i q queue', c.pc (.worker i) = .popping q →
        ConcurrentQueue.Next (.worker i : Thread n κ) c.shared.queue q queue' .idle →
          ∃ node t, q = .popMove node ∧ c.shared.queue.data node = some t) ∧
      ((∀ x, c.pc x = new.pc x) → c.shared.sem = 0 →
        (c.shared.finished : Multiset T)
          = c.shared.queue.linked.filterMap c.shared.queue.given) := by
  obtain ⟨a, hreached, h⟩ := simulates_of_reachable reached
  obtain ⟨hwhole, hlocal⟩ := invariant_of_reachable reached
  obtain ⟨hwhole', hown⟩ := whole_of_reachable hreached
  refine ⟨⟨a, hreached, h⟩, fun i q queue' hhere hmoved => ?_, fun hrest hsem => ?_⟩
  · rcases h.pop hwhole (hlocal _) (h.room hwhole') rfl hhere hmoved with
      ⟨node, rfl, -⟩ | ⟨s, p', -, -, -, hinside⟩
    · have hfilled := (hwhole.moving (.worker i) node (by
        show (c.pc (.worker i)).queue.moving = some node
        rw [hhere]
        rfl)).2.1
      obtain ⟨t, ht⟩ := Option.ne_none_iff_exists'.mp hfilled.2
      exact ⟨node, t, rfl, hfilled.1.trans ht⟩
    · cases hinside
  · have hpc : ∀ x, a.pc x = (Executor.new : Config (Thread n κ) (Executor.Shared n T) _).pc x := by
      intro x
      have hfollows := h.follows x
      rw [hrest x] at hfollows
      generalize a.pc x = p' at hfollows ⊢
      cases hfollows
      rfl
    have hzero : ∀ {M : Type} [AddCommMonoid M] (f : Executor.Place T → M), f .acquire = 0 →
        f .idle = 0 → f .running = 0 → a.sum f = 0 := fun f hacquire hidle hrunning =>
      sum_eq_zero hacquire hidle hrunning (fun i => hpc (.worker i)) (fun k => hpc (.client k))
        (hpc .owner)
    have hstop : a.shared.stop = false := by
      have howner := hown .owner
      rw [hpc .owner] at howner
      rcases howner with ⟨-, hstop, -⟩ | ⟨hhere, -⟩ | ⟨k, -, hhere, -⟩
      · exact hstop
      · cases hhere
      · cases hhere
    have htokens := hwhole'.tokens
    rw [hzero _ rfl rfl rfl, hzero _ rfl rfl rfl, hzero _ rfl rfl rfl, hwhole'.released hstop,
      h.shared] at htokens
    have hempty : c.shared.tasks.queue = [] :=
      List.eq_nil_of_length_eq_zero (htokens.symm.trans hsem)
    have horder := hwhole'.order
    have htasks := hwhole'.tasks
    rw [hzero _ rfl rfl rfl, add_zero, h.shared] at htasks
    rw [h.shared, hempty, List.append_nil] at horder
    exact htasks.symm.trans (congrArg _ horder.symm)

end Simulation

/-- A client submits task 7, and a thread pops it. -/
theorem simulated_pop :
    ∃ (c : Config (Thread 1 Unit) (Shared 1 ℕ) (Place ℕ))
      (a : Config (Thread 1 Unit) (Executor.Shared 1 ℕ) (Executor.Place ℕ)),
      c.pc (.worker 0) = .popping (.popMove 1) ∧
      Reachable Executor.Next (fun _ _ _ => True) Executor.new a ∧
      a.pc (.worker 0) = .run 7 ∧ a.shared.started = [7] := by
  have h₀ : Reachable Next (fun _ _ _ => True)
    (new : Config (Thread 1 Unit) (Shared 1 ℕ) (Place ℕ)) new := .start
  have h₁ := h₀.move (.client ()) (.submit 7) trivial
  have h₂ := h₁.move (.client ()) (.push rfl .getNode) trivial
  have h₃ := h₂.move (.client ()) (.push rfl .getNodeAgain) trivial
  have h₄ := h₃.move (.client ()) (.push rfl .getNext) trivial
  have h₅ := h₄.move (.client ()) (.push rfl .getNextAgain) trivial
  have h₆ := h₅.move (.client ()) (.push rfl .checkPush) trivial
  have h₇ := h₆.move (.client ()) (.push rfl (.pushLink rfl)) trivial
  have h₈ := h₇.move (.client ()) (.push rfl (.pushSwing rfl)) trivial
  have h₉ := h₈.move (.client ()) .post trivial
  have h₁₀ := h₉.move (.worker 0) (.acquire rfl) trivial
  have h₁₁ := h₁₀.move (.worker 0) (.goesOn rfl) trivial
  have h₁₂ := h₁₁.move (.worker 0) .pop trivial
  have h₁₃ := h₁₂.move (.worker 0) (.popGoesOn rfl rfl .getNode) trivial
  have h₁₄ := h₁₃.move (.worker 0) (.popGoesOn rfl rfl .getNodeAgain) trivial
  have h₁₅ := h₁₄.move (.worker 0) (.popGoesOn rfl rfl .getNext) trivial
  have h₁₆ := h₁₅.move (.worker 0) (.popGoesOn rfl rfl .getNextAgain) trivial
  have h₁₇ := h₁₆.move (.worker 0) (.popGoesOn rfl rfl .checkPop) trivial
  have h₁₈ := h₁₇.move (.worker 0) (.popGoesOn rfl rfl .popTail) trivial
  have h₁₉ := h₁₈.move (.worker 0) (.popGoesOn rfl rfl .popNext) trivial
  have h₂₀ := h₁₉.move (.worker 0) (.popGoesOn rfl rfl (.popSwing rfl)) trivial
  obtain ⟨c, h, hhere, hgiven, hpopped⟩ : ∃ c : Config (Thread 1 Unit) (Shared 1 ℕ) (Place ℕ),
      Reachable Next (fun _ _ _ => True) new c ∧ c.pc (.worker 0) = .popping (.popMove 1) ∧
      c.shared.queue.given 1 = some 7 ∧ c.shared.queue.popped = [1] := ⟨_, h₂₀, rfl, rfl, rfl⟩
  obtain ⟨⟨a, hreached, hsimulates⟩, -⟩ := simulated h
  refine ⟨c, a, hhere, hreached, ?_, ?_⟩
  · have hfollows := hsimulates.follows (.worker 0)
    rw [hhere] at hfollows
    generalize a.pc (.worker 0) = p at hfollows ⊢
    cases hfollows with
    | popping pops => exact absurd pops id
    | popped given => rw [Option.some.inj (given.symm.trans hgiven)]
  · rw [hsimulates.shared, Shared.tasks, hpopped]
    simp [hgiven]

end OverQueue

end Executor

end Lsmkv
