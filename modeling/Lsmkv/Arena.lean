import Lsmkv.Lib.Ranges
import Lsmkv.MemTable

/-!
# The arena

`Arena` (`src/utils/arena.h`) hands out memory for the records and the nodes of a memtable.  It takes
blocks of 4096 bytes and uses each from both ends: records are taken from the front (`alloc_ptr`),
nodes, which have to be aligned, from the back (`alloc_aligned_ptr`).  A request for more than a
quarter of a block gets a block of its own; a request for which the open block has no room opens
another one, and what is left of the old one is given up.

Addresses are natural numbers.  What `new char[]` returns is an argument of a call, of any alignment;
that it is fresh means that the blocks of the pool are apart from each other.  The open space is one
more range that is held, between the two pointers (`Arena.Sound`): a request divides it
(`Ranges.Held.divide`) or comes out of a new block (`Ranges.Held.add`).  So the ranges that were
handed out never overlap, whatever the requests are (`Arena.run_granted`).
-/

namespace Lsmkv

open Ranges Range

/-! ## The arena and its calls -/

/-- `align`: eight, the size of a pointer. -/
def Arena.align : ℕ := 8

/-- `ARENA_BLOCK_SIZE`. -/
def Arena.blockSize : ℕ := 4096

/-- `Arena`; a null pointer is 0. -/
structure Arena where
  waste : ℤ
  allocs : ℕ
  allocPtr : ℕ
  allocAlignedPtr : ℕ
  allocBytesRemaining : ℕ
  pool : List Range

namespace Arena

/-- An arena without a block. -/
def new : Arena := ⟨0, 0, 0, 0, 0, []⟩

/-- `getUsed()`. -/
def getUsed (a : Arena) : ℕ := a.allocs

/-- `allocateNewBlock(bytes)`, where `new char[bytes]` returns the address. -/
def allocateNewBlock (a : Arena) (address bytes : ℕ) : ℕ × Arena :=
  (address, { a with pool := a.pool ++ [⟨address, bytes⟩] })

/-- `allocatePtr()`: a block is opened.  The end for aligned requests is moved down to a multiple of
`align`. -/
def allocatePtr (a : Arena) (address : ℕ) : Arena :=
  let (allocPtr, a) := a.allocateNewBlock address blockSize
  let padding := allocPtr &&& (align - 1)
  { a with
    allocPtr := allocPtr
    allocAlignedPtr := allocPtr - padding + blockSize
    waste := a.waste + blockSize
    allocBytesRemaining := blockSize - padding }

/-- `allocateFallBack(bytes)`. -/
def allocateFallBack (a : Arena) (address bytes : ℕ) : ℕ × Arena :=
  if blockSize >>> 2 < bytes then a.allocateNewBlock address bytes
  else
    let a := a.allocatePtr address
    (a.allocPtr,
      { a with
        allocPtr := a.allocPtr + bytes
        allocBytesRemaining := a.allocBytesRemaining - bytes })

/-- `(result + align - 1) & ~(align - 1)`. -/
def roundUp (result : ℕ) : ℕ := (result + align - 1) - ((result + align - 1) &&& (align - 1))

/-- `allocateAlignFallBack(bytes)`. -/
def allocateAlignFallBack (a : Arena) (address bytes : ℕ) : ℕ × Arena :=
  if blockSize >>> 2 < bytes then
    let (result, a) := a.allocateNewBlock address (bytes + align)
    (roundUp result, a)
  else
    let a := a.allocatePtr address
    (a.allocAlignedPtr - bytes,
      { a with
        allocAlignedPtr := a.allocAlignedPtr - bytes
        allocBytesRemaining := a.allocBytesRemaining - bytes })

/-- The first lines of `allocate` and `allocateAligned`. -/
def count (a : Arena) (bytes : ℕ) : Arena :=
  { a with allocs := a.allocs + bytes, waste := a.waste - bytes }

/-- `allocate(bytes)`, with its assertion. -/
def allocate (a : Arena) (address bytes : ℕ) : Outcome (ℕ × Arena) :=
  let a := a.count bytes
  if bytes ≤ a.allocBytesRemaining then
    let result := a.allocPtr
    let a := { a with
      allocPtr := a.allocPtr + bytes
      allocBytesRemaining := a.allocBytesRemaining - bytes }
    if (a.allocAlignedPtr : ℤ) - a.allocPtr = a.allocBytesRemaining then .ok (result, a) else .fault
  else .ok (a.allocateFallBack address bytes)

/-- `allocateAligned(bytes)`. -/
def allocateAligned (a : Arena) (address bytes : ℕ) : ℕ × Arena :=
  let a := a.count bytes
  if bytes ≤ a.allocBytesRemaining then
    (a.allocAlignedPtr - bytes,
      { a with
        allocAlignedPtr := a.allocAlignedPtr - bytes
        allocBytesRemaining := a.allocBytesRemaining - bytes })
  else a.allocateAlignFallBack address bytes

end Arena

/-- A request to an arena. -/
inductive Request
  | allocate (bytes : ℕ)
  | allocateAligned (bytes : ℕ)

/-- The size of a request. -/
def Request.bytes : Request → ℕ
  | allocate bytes | allocateAligned bytes => bytes

/-- A request whose size is a multiple of `align`, if it is to be aligned: those of `createNode`. -/
def Request.Regular : Request → Prop
  | allocate _ => True
  | allocateAligned bytes => Arena.align ∣ bytes

namespace Arena

/-- A request, where `new` returns the address if it is called: the range that is handed out. -/
def serve (a : Arena) (address : ℕ) : Request → Outcome (Range × Arena)
  | .allocate bytes => do
      let (result, a) ← a.allocate address bytes
      .ok (⟨result, bytes⟩, a)
  | .allocateAligned bytes =>
      let (result, a) := a.allocateAligned address bytes
      .ok (⟨result, bytes⟩, a)

/-- Requests, each with the address that `new` has for it. -/
def run (a : Arena) : List (ℕ × Request) → Outcome (List Range × Arena)
  | [] => .ok ([], a)
  | (address, request) :: calls => do
      let (range, a) ← a.serve address request
      let (ranges, a) ← a.run calls
      .ok (range :: ranges, a)

/-- The space between the two pointers. -/
def free (a : Arena) : Range := ⟨a.allocPtr, a.allocBytesRemaining⟩

/-! ## What a call hands out -/

/-- The pointers of an arena agree with its count of bytes, and the back is aligned. -/
structure Tight (a : Arena) : Prop where
  gap : a.allocAlignedPtr = a.allocPtr + a.allocBytesRemaining
  back : align ∣ a.allocAlignedPtr

/-- A range is taken off the open space. -/
structure Takes (space : Range) (a' : Arena) (r : Range) : Prop where
  tight : a'.Tight
  left : a'.free.Inside space
  part : r.Inside space
  apart : a'.free.Apart r

variable {a a' : Arena} {address bytes : ℕ} {request : Request} {r b : Range} {granted : List Range}

theorem and_align (n : ℕ) : n &&& (align - 1) = n % align := Nat.and_two_pow_sub_one_eq_mod n 3

/-- A plain request takes from the front. -/
theorem Tight.front (h : a.Tight) (room : bytes ≤ a.allocBytesRemaining) :
    Takes a.free
      { a with allocPtr := a.allocPtr + bytes, allocBytesRemaining := a.allocBytesRemaining - bytes }
      ⟨a.allocPtr, bytes⟩ where
  tight := by
    refine ⟨?_, h.back⟩
    show a.allocAlignedPtr = a.allocPtr + bytes + (a.allocBytesRemaining - bytes)
    rw [h.gap]
    omega
  left := by
    simp only [Range.Inside, free]
    omega
  part := ⟨le_rfl, Nat.add_le_add_left room _⟩
  apart := (apart_of_le le_rfl).symm

/-- An aligned request takes from the back. -/
theorem Tight.rear (h : a.Tight) (room : bytes ≤ a.allocBytesRemaining) (regular : align ∣ bytes) :
    Takes a.free { a with
        allocAlignedPtr := a.allocAlignedPtr - bytes
        allocBytesRemaining := a.allocBytesRemaining - bytes }
      ⟨a.allocAlignedPtr - bytes, bytes⟩ where
  tight := by
    refine ⟨?_, Nat.dvd_sub h.back regular⟩
    show a.allocAlignedPtr - bytes = a.allocPtr + (a.allocBytesRemaining - bytes)
    rw [h.gap]
    omega
  left := ⟨le_rfl, Nat.add_le_add_left (Nat.sub_le _ _) _⟩
  part := by
    simp only [Range.Inside, free, h.gap]
    omega
  apart := by
    refine apart_of_le ?_
    show a.allocPtr + (a.allocBytesRemaining - bytes) ≤ a.allocAlignedPtr - bytes
    rw [h.gap]
    omega

/-- **A block is opened** at any address; at most seven of its bytes are not used. -/
theorem allocatePtr_spec (a : Arena) (address : ℕ) :
    (a.allocatePtr address).Tight ∧ (a.allocatePtr address).free.Inside ⟨address, blockSize⟩ ∧
      blockSize >>> 2 ≤ (a.allocatePtr address).allocBytesRemaining := by
  have hpad : address % 8 < 8 := Nat.mod_lt _ (by norm_num)
  refine ⟨⟨?_, ?_⟩, ⟨le_rfl, ?_⟩, ?_⟩
  · show address - (address &&& (align - 1)) + blockSize = address + (blockSize - (address &&& (align - 1)))
    rw [and_align, align, blockSize]
    omega
  · show align ∣ address - (address &&& (align - 1)) + blockSize
    rw [and_align, align, blockSize]
    omega
  · exact Nat.add_le_add_left (Nat.sub_le _ _) _
  · show 1024 ≤ blockSize - (address &&& (align - 1))
    rw [and_align, align, blockSize]
    omega

/-- What a call does: it counts the request, and hands out a range of its size, off the open space
or off a new block. -/
structure Grants (a a' : Arena) (request : Request) (r : Range) : Prop where
  tight : a'.Tight
  used : a'.allocs = a.allocs + request.bytes
  size : r.size = request.bytes
  aligned : ∀ bytes, request = .allocateAligned bytes → align ∣ r.start
  memory : (a'.pool = a.pool ∧ Takes a.free a' r) ∨
    ∃ b, a'.pool = a.pool ++ [b] ∧ r.Inside b ∧
      (a'.free = a.free ∨ (a'.free.Inside b ∧ a'.free.Apart r))

/-- A range off a block that is opened for it. -/
theorem Takes.of_open {space : Range} (h : Takes space a' r) (opened : space.Inside b) :
    r.Inside b ∧ (a'.free = a.free ∨ (a'.free.Inside b ∧ a'.free.Apart r)) :=
  ⟨h.part.trans opened, .inr ⟨h.left.trans opened, h.apart⟩⟩

/-- The range of a large aligned request is moved up inside its block. -/
theorem roundUp_spec (address bytes : ℕ) :
    align ∣ roundUp address ∧ (Range.mk (roundUp address) bytes).Inside ⟨address, bytes + align⟩ := by
  have hround : roundUp address = (address + 7) - (address + 7) % 8 := by
    rw [roundUp, and_align]
    rfl
  rw [hround, align]
  refine ⟨Nat.dvd_sub_mod _, ?_, ?_⟩
  · show address ≤ address + 7 - (address + 7) % 8
    omega
  · show address + 7 - (address + 7) % 8 + bytes ≤ address + (bytes + 8)
    omega

/-- **A plain request** is granted, and its assertion holds. -/
theorem allocate_grants (h : a.Tight) (address bytes : ℕ) :
    ∃ result a', a.allocate address bytes = .ok (result, a') ∧
      Grants a a' (.allocate bytes) ⟨result, bytes⟩ := by
  have hcount : (a.count bytes).Tight := ⟨h.gap, h.back⟩
  by_cases hroom : bytes ≤ a.allocBytesRemaining
  · have htakes := hcount.front hroom
    refine ⟨_, _, ?_, htakes.tight, rfl, rfl, nofun, .inl ⟨rfl, htakes⟩⟩
    have hgap := htakes.tight.gap
    refine (if_pos hroom).trans (if_pos ?_)
    rw [hgap]
    push_cast
    ring
  · by_cases hlarge : blockSize >>> 2 < bytes
    · refine ⟨_, _, (if_neg hroom).trans (congrArg Outcome.ok (if_pos hlarge)),
        ⟨hcount.gap, hcount.back⟩, rfl, rfl, nofun,
        .inr ⟨⟨address, bytes⟩, rfl, ⟨le_rfl, le_rfl⟩, .inl rfl⟩⟩
    · obtain ⟨htight, hinside, henough⟩ := allocatePtr_spec (a.count bytes) address
      have htakes := htight.front ((not_lt.mp hlarge).trans henough)
      refine ⟨_, _, (if_neg hroom).trans (congrArg Outcome.ok (if_neg hlarge)), htakes.tight, rfl, rfl,
        nofun, .inr ⟨⟨address, blockSize⟩, rfl, htakes.of_open hinside⟩⟩

/-- **An aligned request** is granted, at a multiple of `align`. -/
theorem allocateAligned_grants (h : a.Tight) (address : ℕ) (regular : align ∣ bytes) :
    Grants a (a.allocateAligned address bytes).2 (.allocateAligned bytes)
      ⟨(a.allocateAligned address bytes).1, bytes⟩ := by
  have hcount : (a.count bytes).Tight := ⟨h.gap, h.back⟩
  by_cases hroom : bytes ≤ a.allocBytesRemaining
  · have htakes := hcount.rear hroom regular
    have hcall : a.allocateAligned address bytes = _ := if_pos hroom
    rw [hcall]
    exact ⟨htakes.tight, rfl, rfl, fun _ _ => htakes.tight.back, .inl ⟨rfl, htakes⟩⟩
  · by_cases hlarge : blockSize >>> 2 < bytes
    · have hcall : a.allocateAligned address bytes = _ := (if_neg hroom).trans (if_pos hlarge)
      obtain ⟨hdvd, hinside⟩ := roundUp_spec address bytes
      rw [hcall]
      exact ⟨⟨hcount.gap, hcount.back⟩, rfl, rfl, fun _ _ => hdvd,
        .inr ⟨⟨address, bytes + align⟩, rfl, hinside, .inl rfl⟩⟩
    · have hcall : a.allocateAligned address bytes = _ := (if_neg hroom).trans (if_neg hlarge)
      obtain ⟨htight, hinside, henough⟩ := allocatePtr_spec (a.count bytes) address
      have htakes := htight.rear ((not_lt.mp hlarge).trans henough) regular
      rw [hcall]
      exact ⟨htakes.tight, rfl, rfl, fun _ _ => htakes.tight.back,
        .inr ⟨⟨address, blockSize⟩, rfl, htakes.of_open hinside⟩⟩

theorem serve_grants (h : a.Tight) (address : ℕ) (regular : request.Regular) :
    ∃ r a', a.serve address request = .ok (r, a') ∧ Grants a a' request r := by
  cases request with
  | allocate bytes =>
      obtain ⟨result, a', hcall, hgrants⟩ := allocate_grants h address bytes
      exact ⟨⟨result, bytes⟩, a', by rw [serve, hcall]; rfl, hgrants⟩
  | allocateAligned bytes => exact ⟨_, _, rfl, allocateAligned_grants h address regular⟩

/-! ## Runs -/

/-- **One call** keeps what was handed out apart, if the block that it may add is. -/
theorem Grants.held (h : Grants a a' request r) (held : Held a.pool (a.free :: granted))
    (fresh : a'.pool.Pairwise Apart) : Held a'.pool (a'.free :: r :: granted) := by
  rcases h.memory with ⟨hpool, htakes⟩ | ⟨b, hpool, hpart, hfree⟩
  · rw [hpool]
    exact held.divide htakes.left htakes.part htakes.apart
  · rw [hpool] at fresh ⊢
    have hfresh : ∀ b' ∈ a.pool, b'.Apart b := fun b' hb' =>
      (List.pairwise_append.mp fresh).2.2 b' hb' b (List.mem_singleton_self _)
    rcases hfree with hsame | ⟨hinside, hapart⟩
    · rw [hsame]
      have hnew : ∀ n ∈ [r], n.Inside b := by simpa using hpart
      exact (held.add hfresh hnew (List.pairwise_singleton _ _)).swap
    · have hnew : ∀ n ∈ [a'.free, r], n.Inside b := by simpa using ⟨hinside, hpart⟩
      exact held.tail.add hfresh hnew (List.pairwise_pair.mpr hapart)

/-- What an arena promises about requests and the ranges handed out for them. -/
structure Granted (calls : List (ℕ × Request)) (ranges : List Range) (a : Arena) : Prop where
  gap : (a.allocAlignedPtr : ℤ) - a.allocPtr = a.allocBytesRemaining
  answers : List.Forall₂ (fun c r => r.size = c.2.bytes ∧
    ∀ bytes, c.2 = .allocateAligned bytes → align ∣ r.start) calls ranges
  inside : ∀ r ∈ ranges, r.size = 0 ∨ ∃ b ∈ a.pool, r.Inside b
  apart : ranges.Pairwise Apart
  used : a.getUsed = (calls.map fun c => c.2.bytes).sum

/-- **A run** never fails an assertion, and adds blocks to the pool only.  If these are apart, so is
all that is handed out. -/
theorem run_spec (h : a.Tight) {calls : List (ℕ × Request)} (regular : ∀ c ∈ calls, c.2.Regular) :
    ∃ ranges a', a.run calls = .ok (ranges, a') ∧ a'.Tight ∧ a.pool <+: a'.pool ∧
      a'.allocs = a.allocs + (calls.map fun c => c.2.bytes).sum ∧
      List.Forall₂ (fun c r => r.size = c.2.bytes ∧
        ∀ bytes, c.2 = .allocateAligned bytes → align ∣ r.start) calls ranges ∧
      ∀ granted, Held a.pool (a.free :: granted) → a'.pool.Pairwise Apart →
        Held a'.pool (a'.free :: (ranges.reverse ++ granted)) := by
  induction calls generalizing a with
  | nil => exact ⟨[], a, rfl, h, List.prefix_rfl, rfl, .nil, fun _ held _ => held⟩
  | cons c calls ih =>
      obtain ⟨address, request⟩ := c
      obtain ⟨r, a₁, hserve, hgrants⟩ := serve_grants h address (regular _ List.mem_cons_self)
      obtain ⟨ranges, a', hrun, htight, hpool, hused, hanswers, hheld⟩ :=
        ih hgrants.tight fun c hc => regular c (List.mem_cons_of_mem _ hc)
      have hgrows : a.pool <+: a₁.pool := by
        rcases hgrants.memory with ⟨heq, -⟩ | ⟨b, heq, -⟩
        · exact heq ▸ List.prefix_rfl
        · exact heq ▸ List.prefix_append _ _
      refine ⟨r :: ranges, a', ?_, htight, hgrows.trans hpool, ?_,
        .cons ⟨hgrants.size, hgrants.aligned⟩ hanswers, fun granted held fresh => ?_⟩
      · rw [run, hserve]
        show (a₁.run calls >>= _) = _
        rw [hrun]
        rfl
      · rw [hused, hgrants.used, List.map_cons, List.sum_cons, Nat.add_assoc]
      · have hstep := hgrants.held held (fresh.sublist hpool.sublist)
        rw [List.reverse_cons, List.append_assoc]
        exact hheld _ hstep fresh

theorem tight_new : new.Tight := ⟨rfl, dvd_zero _⟩

/-- **What an arena hands out never overlaps.**  For every sequence of requests, the aligned ones for
multiples of eight bytes, and whatever addresses `new` returns: no assertion fails; and if the blocks
are apart from each other, the pointers agree with the bytes that remain, every range that is handed
out has the size asked for and lies in a block, no two of them overlap, those that were to be aligned
are, and `getUsed` is the sum of the sizes. -/
theorem run_granted (calls : List (ℕ × Request)) (regular : ∀ c ∈ calls, c.2.Regular) :
    ∃ ranges a, new.run calls = .ok (ranges, a) ∧
      (a.pool.Pairwise Apart → Granted calls ranges a) := by
  obtain ⟨ranges, a, hrun, htight, -, hused, hanswers, hheld⟩ := run_spec tight_new regular
  refine ⟨ranges, a, hrun, fun fresh => ?_⟩
  have hall := (hheld [] ⟨by simp [new, free], List.pairwise_singleton _ _⟩ fresh).tail
  rw [List.append_nil] at hall
  refine ⟨?_, hanswers, fun r hr => hall.inside r (List.mem_reverse.mpr hr), ?_, ?_⟩
  · rw [htight.gap]
    push_cast
    ring
  · exact (List.pairwise_reverse.mp hall.apart).imp Apart.symm
  · rw [getUsed, hused, new, Nat.zero_add]

/-- A block at an odd address that is used from both ends, and two large requests. -/
def fourCalls : List (ℕ × Request) :=
  [(5, .allocate 28), (0, .allocateAligned 24), (8193, .allocateAligned 4048), (20000, .allocate 5000)]

theorem run_granted_four :
    ∃ ranges a, new.run fourCalls = .ok (ranges, a) ∧
      ranges = [⟨5, 28⟩, ⟨4072, 24⟩, ⟨8200, 4048⟩, ⟨20000, 5000⟩] ∧ Granted fourCalls ranges a := by
  obtain ⟨ranges, a, hrun, hgranted⟩ := run_granted fourCalls
    (by simp [fourCalls, Request.Regular, align])
  have hvalue : new.run fourCalls = .ok ([⟨5, 28⟩, ⟨4072, 24⟩, ⟨8200, 4048⟩, ⟨20000, 5000⟩],
      ⟨-5004, 9100, 33, 4072, 4039, [⟨5, 4096⟩, ⟨8193, 4056⟩, ⟨20000, 5000⟩]⟩) := rfl
  obtain ⟨rfl, rfl⟩ := Prod.mk.inj (Outcome.ok.inj (hrun.symm.trans hvalue))
  refine ⟨_, _, hrun, rfl, hgranted ?_⟩
  refine .cons (fun b hb => ?_) (List.pairwise_pair.mpr (apart_of_le (by decide)))
  rcases List.mem_cons.mp hb with rfl | hb
  · exact apart_of_le (by decide)
  · exact List.mem_singleton.mp hb ▸ apart_of_le (by decide)

end Arena

/-! ## The memory of a memtable -/

namespace MemTable

/-- What a `put` asks of the arena: the record, and a node of the height that was drawn. -/
def requests (key : InternalKey) (height : ℕ) : List Request :=
  [.allocate (16 + 8 + key.userKey.length + 4), .allocateAligned (nodeSize height)]

/-- `createNode` asks for multiples of eight bytes. -/
theorem regular_requests {key : InternalKey} {height : ℕ} {request : Request}
    (mem : request ∈ requests key height) : request.Regular := by
  rcases List.mem_cons.mp mem with rfl | mem
  · trivial
  · obtain rfl := List.mem_singleton.mp mem
    show Arena.align ∣ 24 + 8 * (height - 1)
    exact Nat.dvd_add ⟨3, rfl⟩ ⟨_, rfl⟩

/-- **The memory of a memtable is what its arena has handed out.**  The arena of a `put` grants both
requests, and its count grows as that of the memtable does. -/
theorem put_used {a : Arena} (h : a.Tight) (m : MemTable) (used : a.getUsed = m.used) (key : InternalKey)
    (value : VLogEntryInfo) (height : ℕ) (record node : ℕ) :
    ∃ ranges a', a.run ([record, node].zip (requests key height)) = .ok (ranges, a') ∧ a'.Tight ∧
      a'.getUsed = (m.put key value height).used := by
  have hregular : ∀ c ∈ [record, node].zip (requests key height), c.2.Regular := fun c hc =>
    regular_requests (List.of_mem_zip hc).2
  obtain ⟨ranges, a', hrun, htight, -, hused, -⟩ := Arena.run_spec h hregular
  refine ⟨ranges, a', hrun, htight, ?_⟩
  have hcount : m.used = a.allocs := used.symm
  rw [Arena.getUsed, hused, put, hcount]
  show a.allocs + (16 + 8 + key.userKey.length + 4 + (nodeSize height + 0))
    = a.allocs + (16 + 8 + key.userKey.length + 4) + nodeSize height
  omega

end MemTable

end Lsmkv
