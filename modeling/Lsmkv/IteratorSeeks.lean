import Lsmkv.Comparators
import Lsmkv.Lib.SortedCut
import Lsmkv.TableIteration

/-!
# Seeking in blocks and tables

`BlockIterator::seek(K1, K2)` searches a block twice, for the first entry that is not below `K1` and
from there for the first above `K2`; where the first search finds nothing, the iterator is put into
a state of its own, that neither `valid()` nor `AppendNext` takes for a range.  In a block whose
entries are sorted by user key, what the iterator then visits is the entries of the range, and one
more after `AppendNext` if there is one (`BlockIterator.seekRange_visits`).  Positions have 32 bits,
and so have the sizes that `ParserBlock` adds: an entry of `2 ^ 32` bytes is not visited
(`BlockIterator.not_seekRange_visits`).

`TableIterator::seek(target)` searches the index and then the block under the entry it has found.
`next` expects the index to be a block ahead, as `seekToFirst` leaves it, and `seek` does not move
it on: at the end of the block that was searched, `next` reads the same block once more, from its
start.  So the iterator yields what it should if no entry is at or above the target, and never
else (`tableIterator_seek_iff`).
-/

namespace Lsmkv

open ByteCode Files SortedCut

/-! ## What a block iterator visits -/

namespace BlockIterator

/-- The pairs `key()`, `value()` up to `valid()` being false; the number bounds the rounds. -/
def drain : ℕ → BlockIterator → Outcome (List (Bytes × Bytes))
  | 0, it => if it.valid then .fault else .ok []
  | rounds + 1, it =>
      if it.valid then do
        let key ← it.key
        let value ← it.value
        let it ← it.next
        let rest ← drain rounds it
        .ok ((key, value) :: rest)
      else .ok []

variable {it : BlockIterator} {pre mid post es : List (Bytes × Bytes)}

theorem drain_of_invalid (invalid : it.valid = false) (rounds : ℕ) : it.drain rounds = .ok [] := by
  cases rounds <;> simp [drain, invalid]

/-- An iterator visits the entries of its range. -/
theorem At.drain (h : it.At pre mid post) {rounds : ℕ} (enough : mid.length ≤ rounds) :
    it.drain rounds = .ok mid := by
  induction mid generalizing it pre rounds with
  | nil => exact drain_of_invalid (by simpa using h.valid_iff) rounds
  | cons e mid ih =>
      cases rounds with
      | zero => simp at enough
      | succ rounds =>
          obtain ⟨hkey, hvalue⟩ := h.head
          obtain ⟨it', hnext, hat⟩ := h.next
          rw [BlockIterator.drain, if_pos (h.valid_iff.mpr (List.cons_ne_nil _ _)), hkey, hvalue, hnext]
          simp only [Outcome.ok_bind]
          rw [ih hat (Nat.le_of_succ_le_succ (by simpa using enough))]
          rfl

/-- The entries of a range of user keys. -/
def between (k1 k2 : InternalKey) (es : List (Bytes × Bytes)) : List (Bytes × Bytes) :=
  es.filter fun e => decide (k1.userKey ≤ blockUserKey e ∧ blockUserKey e ≤ k2.userKey)

/-- The first entry above a user key, if there is one. -/
def firstAbove (k2 : InternalKey) (es : List (Bytes × Bytes)) : List (Bytes × Bytes) :=
  (es.filter fun e => decide (k2.userKey < blockUserKey e)).take 1

/-- `seek(K1, K2)` leaves an iterator that visits the entries of the range, and these and the next
one behind `AppendNext()`. -/
def Visits (it : BlockIterator) (k1 k2 : InternalKey) (es : List (Bytes × Bytes)) : Prop :=
  ∃ found appended, it.seekRange k1.encode k2.encode = .ok found ∧ found.appendNext = .ok appended ∧
    ∀ rounds, es.length ≤ rounds →
      found.drain rounds = .ok (between k1 k2 es) ∧
      appended.drain rounds = .ok (between k1 k2 es ++ firstAbove k2 es)

theorem appendNext_setInValid (it : BlockIterator) : it.setInValid.appendNext = .ok it.setInValid :=
  if_neg fun h => absurd h.1 (by simp [setInValid])

/-- Where no entry reaches `K1`, the iterator is behind `SetInValid()`. -/
theorem seekRange_of_none (buffer : it.buffer = blockBytes es) (small : it.buffer.length < 2 ^ 32)
    (long : ∀ e ∈ es, 8 ≤ e.1.length) {k1 : InternalKey} (below : ∀ e ∈ es, blockUserKey e < k1.userKey)
    (k2 : InternalKey) : ∃ it' : BlockIterator,
      it.seekRange k1.encode k2.encode = .ok it'.setInValid := by
  set goesOn : Bytes × Bytes → Bool := fun e => decide (blockUserKey e < k1.userKey)
  have hagree : ∀ e ∈ es, reachesKey k1.encode e.1 = .ok (!goesOn e) := by
    intro e he
    rw [reachesKey, userKeyCompare_encode k1 (long e he), Outcome.ok_bind]
    simp [goesOn, below e he, strCompare_eq_gt]
  have hloop := seekLoop_blockBytes (fun e he => fits_of_mem_blockBytes he (buffer ▸ small)) hagree
    (buffer ▸ length_le_blockBytes es : es.length ≤ it.buffer.length) 0
  have hend : es.dropWhile goesOn = [] :=
    List.dropWhile_eq_nil_iff.mpr fun e he => decide_eq_true (below e he)
  rw [← buffer, if_pos hend] at hloop
  refine ⟨{ it with cur := it.buffer.length % 2 ^ 32 }, ?_⟩
  rw [seekRange, hloop, Outcome.ok_bind]
  exact if_pos (Nat.mod_eq_of_lt small)

/-- **`seek(K1, K2)` in a sorted block**: the iterator visits the entries of the range, in order,
with every version of their user keys, and `AppendNext()` takes in the next entry, if there is one.
The block is shorter than positions of 32 bits can say. -/
theorem seekRange_visits (buffer : it.buffer = blockBytes es) (small : (blockBytes es).length < 2 ^ 32)
    (long : ∀ e ∈ es, 8 ≤ e.1.length) (sorted : es.Pairwise fun a b => blockUserKey a ≤ blockUserKey b)
    {k1 k2 : InternalKey} (le : k1.userKey ≤ k2.userKey) : it.Visits k1 k2 es := by
  rw [← buffer] at small
  by_cases hnone : ∀ e ∈ es, blockUserKey e < k1.userKey
  · -- Nothing reaches `K1`: nothing is visited, and nothing is appended.
    obtain ⟨it', hseek⟩ := seekRange_of_none buffer small long hnone k2
    have hbetween : between k1 k2 es = [] :=
      List.filter_eq_nil_iff.mpr fun e he => by simp [(hnone e he).not_ge]
    have habove : firstAbove k2 es = [] := by
      have hfilter : es.filter (fun e => decide (k2.userKey < blockUserKey e)) = [] :=
        List.filter_eq_nil_iff.mpr fun e he => by simpa using (hnone e he).le.trans le
      rw [firstAbove, hfilter, List.take_nil]
    refine ⟨_, _, hseek, appendNext_setInValid it', fun rounds _ => ?_⟩
    rw [hbetween, habove]
    exact ⟨drain_of_invalid rfl rounds, drain_of_invalid rfl rounds⟩
  · obtain ⟨found, hseek, -, -, hat⟩ := seekRange_spec it buffer small long k1 k2
    have hreach : es.dropWhile (fun e => decide (blockUserKey e < k1.userKey)) ≠ [] := by
      intro hend
      refine hnone fun e he => ?_
      simpa using List.dropWhile_eq_nil_iff.mp hend e he
    have hfound := hat hreach
    obtain ⟨appended, happend, happended⟩ := hfound.appendNext
    have hmid : (es.dropWhile fun e => decide (blockUserKey e < k1.userKey)).takeWhile
        (fun e => decide (blockUserKey e ≤ k2.userKey)) = between k1 k2 es :=
      takeWhile_dropWhile_lt_le sorted _ _
    have hpost : (es.dropWhile fun e => decide (blockUserKey e < k1.userKey)).dropWhile
        (fun e => decide (blockUserKey e ≤ k2.userKey)) = es.filter _ :=
      dropWhile_dropWhile_lt_le sorted le
    have hlength : (between k1 k2 es ++ firstAbove k2 es).length ≤ es.length := by
      have hcut := congrArg List.length (List.takeWhile_append_dropWhile
        (p := fun e => decide (blockUserKey e ≤ k2.userKey))
        (l := es.dropWhile fun e => decide (blockUserKey e < k1.userKey)))
      rw [hmid, hpost, List.length_append] at hcut
      rw [List.length_append, firstAbove, List.length_take]
      have hdrop := (List.dropWhile_sublist (l := es)
        fun e => decide (blockUserKey e < k1.userKey)).length_le
      omega
    rw [hmid, hpost] at hfound happended
    refine ⟨found, appended, hseek, happend, fun rounds hrounds => ⟨?_, ?_⟩⟩
    · exact hfound.drain ((List.length_filter_le _ _).trans hrounds)
    · exact happended.drain (hlength.trans hrounds)

/-- A range with two versions of one key, and a later key that `AppendNext()` takes in. -/
theorem seekRange_visits_versions :
    (ofBuffer (blockBytes [((InternalKey.mk [1] 9).encode, []), ((InternalKey.mk [2] 8).encode, [7]),
      ((InternalKey.mk [2] 5).encode, []), ((InternalKey.mk [4] 6).encode, [])])).Visits
      ⟨[2], 0⟩ ⟨[3], 0⟩ [((InternalKey.mk [1] 9).encode, []), ((InternalKey.mk [2] 8).encode, [7]),
      ((InternalKey.mk [2] 5).encode, []), ((InternalKey.mk [4] 6).encode, [])] :=
  seekRange_visits rfl (by decide) (by decide) (by decide) (by decide)

/-- The sizes of an entry of `2 ^ 32` bytes add up to zero in 32 bits: `ParserBlock` takes nothing
off the block. -/
theorem parserBlock_of_wraps {e : Bytes × Bytes} (wraps : e.1.length + e.2.length + 8 = 2 ^ 32)
    (rest : Bytes) : parserBlock (entryBytes e ++ rest) = .ok ([], entryBytes e ++ rest) := by
  have hempty : (entryBytes e ++ rest).isEmpty = false := by
    rw [List.isEmpty_eq_false_iff]
    exact List.append_ne_nil_of_left_ne_nil (entryBytes_ne_nil e) rest
  have hkey : e.1.length % 2 ^ 32 = e.1.length := Nat.mod_eq_of_lt (by omega)
  have hvalue : e.2.length % 2 ^ 32 = e.2.length := Nat.mod_eq_of_lt (by omega)
  rw [parserBlock, hempty, if_neg Bool.false_ne_true, fixedDecode_key_size, fixedDecode_value_size]
  simp only [Outcome.ofOption_some, Outcome.ok_bind, hkey, hvalue, wraps, Nat.mod_self, Nat.not_lt_zero,
    if_false, List.take_zero, List.drop_zero]

/-- The search ends at such an entry. -/
theorem seekRange_of_wraps {e : Bytes × Bytes} (wraps : e.1.length + e.2.length + 8 = 2 ^ 32)
    (k1 k2 : Bytes) : (ofBuffer (blockBytes [e])).seekRange k1 k2
      = .ok (ofBuffer (blockBytes [e])).setInValid := by
  have hbytes : blockBytes [e] = entryBytes e ++ [] := rfl
  obtain ⟨n, hn⟩ : ∃ n, (blockBytes [e]).length = n + 1 :=
    Nat.exists_eq_succ_of_ne_zero (by simp)
  have hempty : (blockBytes [e]).isEmpty = false := by
    rw [List.isEmpty_eq_false_iff, ne_eq, blockBytes_eq_nil]
    exact List.cons_ne_nil _ _
  have hloop : seekLoop (reachesKey k1) (blockBytes [e]).length 0 (blockBytes [e]) = .ok .bad := by
    rw [hn, seekLoop, hempty, if_neg Bool.false_ne_true, hbytes, parserBlock_of_wraps wraps]
    rfl
  show (seekLoop (reachesKey k1) (blockBytes [e]).length 0 (blockBytes [e]) >>= _) = _
  rw [hloop]
  rfl

/-- One entry with a key of eight bytes and a value of `2 ^ 32 - 16`: it is not visited. -/
theorem not_seekRange_visits :
    ¬ ∀ (es : List (Bytes × Bytes)) (k1 k2 : InternalKey), (∀ e ∈ es, 8 ≤ e.1.length) →
      (es.Pairwise fun a b => blockUserKey a ≤ blockUserKey b) → k1.userKey ≤ k2.userKey →
      (ofBuffer (blockBytes es)).Visits k1 k2 es := by
  intro claim
  obtain ⟨value, hvalue⟩ : ∃ value : Bytes, value.length = 2 ^ 32 - 16 :=
    ⟨List.replicate (2 ^ 32 - 16) 0, List.length_replicate ..⟩
  obtain ⟨found, appended, hseek, -, hdrain⟩ := claim [((InternalKey.mk [] 0).encode, value)] ⟨[], 0⟩ ⟨[], 0⟩
    (by simp) (List.pairwise_singleton _ _) le_rfl
  rw [seekRange_of_wraps (by rw [InternalKey.length_encode, hvalue]; rfl)] at hseek
  obtain rfl := Outcome.ok.inj hseek
  have hvisited := (hdrain _ le_rfl).1
  rw [drain_of_invalid rfl] at hvisited
  have hall : between ⟨[], 0⟩ ⟨[], 0⟩ [((InternalKey.mk [] 0).encode, value)]
      = [((InternalKey.mk [] 0).encode, value)] := by
    simp [between, blockUserKey, InternalKey.encode]
  rw [hall] at hvisited
  exact absurd (Outcome.ok.inj hvisited) (by simp)

end BlockIterator

/-! ## `seek(target)` -/

/-- `compare(target, key) <= 0`: the loop of `seek(target)` stops at the key. -/
def reachesTarget (cmp : Bytes → Bytes → Outcome Ordering) (target key : Bytes) : Outcome Bool := do
  let c ← cmp target key
  .ok (decide (c ≠ .gt))

/-- `BlockIterator::seek(target)`. -/
def BlockIterator.seek (cmp : Bytes → Bytes → Outcome Ordering) (it : BlockIterator) (target : Bytes) :
    Outcome BlockIterator := do
  match ← seekLoop (reachesTarget cmp target) it.buffer.length 0 it.buffer with
  | .bad | .exhausted => .ok it.setInValid
  | .found pos => .ok { it with cur := pos % 2 ^ 32, stop := it.buffer.length % 2 ^ 32 }

/-- `TableIterator::seek(target)`. -/
def TableIterator.seek (cmp : Bytes → Bytes → Outcome Ordering) (it : TableIterator) (target : Bytes) :
    Outcome TableIterator := do
  let indexIter ← it.indexIter.seek cmp target
  let it : TableIterator := ⟨it.file, .empty, indexIter⟩
  if it.indexIter.valid then do
    let it ← it.nextBlock
    let blockIter ← it.blockIter.seek cmp target
    .ok { it with blockIter := blockIter }
  else .ok it

/-- **`seek(target)` in a block** leaves the entries behind that its loop goes over.  Where that is
all of them the iterator is invalid. -/
theorem BlockIterator.seek_spec {cmp : Bytes → Bytes → Outcome Ordering} {target : Bytes}
    {goesOn : Bytes × Bytes → Bool} {es : List (Bytes × Bytes)} (it : BlockIterator)
    (buffer : it.buffer = blockBytes es) (small : it.buffer.length < 2 ^ 32)
    (agree : ∀ e ∈ es, reachesTarget cmp target e.1 = .ok (!goesOn e)) :
    ∃ it', it.seek cmp target = .ok it' ∧ (es.dropWhile goesOn = [] → it'.valid = false) ∧
      (es.dropWhile goesOn ≠ [] → it'.At (es.takeWhile goesOn) (es.dropWhile goesOn) []) := by
  have hloop := seekLoop_blockBytes (fun e he => fits_of_mem_blockBytes he (buffer ▸ small)) agree
    (buffer ▸ length_le_blockBytes es : es.length ≤ it.buffer.length) 0
  rw [← buffer, Nat.zero_add] at hloop
  have hsplit : es.takeWhile goesOn ++ es.dropWhile goesOn = es := List.takeWhile_append_dropWhile
  have hlength : it.buffer.length
      = (blockBytes (es.takeWhile goesOn)).length + (blockBytes (es.dropWhile goesOn)).length := by
    rw [buffer, ← List.length_append, ← blockBytes_append, hsplit]
  rw [BlockIterator.seek, hloop, Outcome.ok_bind]
  by_cases hend : es.dropWhile goesOn = []
  · rw [if_pos hend]
    exact ⟨_, rfl, fun _ => rfl, fun hne => absurd hend hne⟩
  · rw [if_neg hend]
    refine ⟨_, rfl, fun hnil => absurd hnil hend, fun _ => ⟨?_, ?_, ?_, small⟩⟩
    · rw [List.append_nil, hsplit]
      exact buffer
    · exact Nat.mod_eq_of_lt (by omega)
    · rw [hsplit, ← buffer]
      exact Nat.mod_eq_of_lt small

/-! ## The search for an internal key -/

/-- The search for a target goes over an entry of a block: its key is below the target. -/
def goesOver (target : InternalKey) (e : Bytes × Bytes) : Bool :=
  decide (internalKeyCompare target.encode e.1 = .ok .gt)

theorem reachesTarget_goesOver {target : InternalKey} (tag : target.tag < 2 ^ 64) {e : Bytes × Bytes}
    (long : 8 ≤ e.1.length) :
    reachesTarget internalKeyCompare target.encode e.1 = .ok (!goesOver target e) := by
  obtain ⟨k, hk, hencode⟩ := InternalKey.exists_encode long
  rw [reachesTarget, goesOver, ← hencode, internalKeyCompare_encode tag hk, Outcome.ok_bind]
  simp only [ne_eq, Outcome.ok.injEq, decide_not]

theorem goesOver_encode {target k : InternalKey} (tag : target.tag < 2 ^ 64) (tag' : k.tag < 2 ^ 64)
    (value : Bytes) : goesOver target (k.encode, value) = decide (k < target) := by
  rw [goesOver, internalKeyCompare_encode tag tag', decide_eq_decide, Outcome.ok.injEq,
    compare_gt_iff_gt]

/-- The entries of a table that a search for a target is to find. -/
def fromTarget (target : InternalKey) (es : List (Entry Bytes)) : List (Entry Bytes) :=
  es.filter fun e => decide (target ≤ e.key)

/-- In a block that is sorted, what the search stands before are the entries it is to find. -/
theorem dropWhile_goesOver {target : InternalKey} (tag : target.tag < 2 ^ 64) {blk : List (Entry Bytes)}
    (sorted : blk.Pairwise fun a b => a.key ≤ b.key) (tags : ∀ e ∈ blk, e.key.tag < 2 ^ 64) :
    (blk.map Entry.toBlock).dropWhile (goesOver target) = (fromTarget target blk).map Entry.toBlock := by
  have hagree : ∀ e ∈ blk, goesOver target e.toBlock = decide (e.key < target) :=
    fun e he => goesOver_encode tag (tags e he) e.value
  rw [List.dropWhile_map, fromTarget, ← dropWhile_lt sorted]
  congr 1
  induction blk with
  | nil => rfl
  | cons e blk ih =>
      have hrest := ih (List.pairwise_cons.mp sorted).2 (fun d hd => tags d (List.mem_cons_of_mem _ hd))
        fun d hd => hagree d (List.mem_cons_of_mem _ hd)
      rw [List.dropWhile_cons, List.dropWhile_cons, hrest]
      show (if goesOver target e.toBlock = true then _ else _) = _
      rw [hagree e List.mem_cons_self]

namespace TableIterator

variable {crc32c : Bytes → ℕ} {filter : Bytes} {target : InternalKey}
  {blocks rest : List (List (Entry Bytes))} {blk : List (Entry Bytes)}

/-- The search of the index goes over the blocks whose last key is below the target. -/
theorem goesOver_indexEntry (tag : target.tag < 2 ^ 64) (nonempty : ∀ blk ∈ blocks, blk ≠ [])
    (tags : ∀ blk ∈ blocks, ∀ e ∈ blk, e.key.tag < 2 ^ 64) :
    ∀ blk ∈ blocks, ∀ offset,
      goesOver target (indexEntry offset blk) = lastBelow Entry.key target blk := by
  intro blk hblk offset
  have hlast := List.getLast?_eq_some_getLast (nonempty blk hblk)
  have htag := tags blk hblk _ (List.getLast_mem (nonempty blk hblk))
  rw [lastBelow_eq (nonempty blk hblk), indexEntry, lastKeyBytes, hlast]
  exact goesOver_encode tag htag _

/-- `seek(target)` where the index leads nowhere: nothing is left. -/
theorem seek_of_none (tag : target.tag < 2 ^ 64) (nonempty : ∀ blk ∈ blocks, blk ≠ [])
    (tags : ∀ blk ∈ blocks, ∀ e ∈ blk, e.key.tag < 2 ^ 64)
    (small : (blockBytes (indexEntries 0 blocks)).length < 2 ^ 32)
    (none : blocks.dropWhile (lastBelow Entry.key target) = []) (file : Bytes) :
    ∃ it', seek internalKeyCompare ⟨file, .empty, .ofBuffer (blockBytes (indexEntries 0 blocks))⟩
      target.encode = .ok it' ∧ ∀ rounds, it'.drain rounds = .ok [] := by
  obtain ⟨-, hdrop⟩ := indexEntries_cut_of (fun _ => 0) (goesOver_indexEntry tag nonempty tags) 0
  obtain ⟨ix, hix, hinvalid, -⟩ := BlockIterator.seek_spec
    (.ofBuffer (blockBytes (indexEntries 0 blocks))) rfl small
    fun e he => reachesTarget_goesOver tag (length_of_mem_indexEntries nonempty e he)
  rw [hdrop, none] at hinvalid
  have hused : ix.valid = false := hinvalid rfl
  refine ⟨⟨file, .empty, ix⟩, ?_, fun rounds => drain_of_invalid hused rfl rounds⟩
  rw [seek, hix, Outcome.ok_bind]
  exact if_neg (by simp [hused])

/-- **`seek(target)` where the index leads to a block**: the iterator stands in this block, before
what the search is to find, and the index still lists the block. -/
theorem seek_of_block (tag : target.tag < 2 ^ 64) (nonempty : ∀ blk ∈ blocks, blk ≠ [])
    (sorted : blocks.flatten.Pairwise fun a b => a.key ≤ b.key)
    (tags : ∀ blk ∈ blocks, ∀ e ∈ blk, e.key.tag < 2 ^ 64) (fits : Fits crc32c blocks filter)
    (stops : blocks.dropWhile (lastBelow Entry.key target) = blk :: rest) :
    ∃ it' bpre, seek internalKeyCompare
        ⟨layoutFile crc32c blocks filter, .empty, .ofBuffer (blockBytes (indexEntries 0 blocks))⟩
        target.encode = .ok it' ∧
      it'.At crc32c filter bpre ((fromTarget target blk).map Entry.toBlock) (blk :: rest) := by
  obtain ⟨-, hdrop⟩ := indexEntries_cut_of crc32c (goesOver_indexEntry tag nonempty tags) 0
  obtain ⟨ix, hix, -, hat⟩ := BlockIterator.seek_spec
    (.ofBuffer (blockBytes (indexEntries 0 blocks))) rfl fits.index
    fun e he => reachesTarget_goesOver tag (length_of_mem_indexEntries nonempty e he)
  rw [hdrop, stops, Nat.zero_add] at hat
  have hsplit : blocks.takeWhile (lastBelow Entry.key target) ++ blk :: rest = blocks := by
    rw [← stops, List.takeWhile_append_dropWhile]
  have hindex : At crc32c filter ⟨layoutFile crc32c blocks filter, .empty, ix⟩
      (blocks.takeWhile (lastBelow Entry.key target)) [] (blk :: rest) :=
    ⟨by rw [hsplit], by rwa [hsplit], by rwa [hsplit], ⟨[], rfl, rfl, rfl, Nat.two_pow_pos 32⟩, _,
      hat (by simp [indexEntries])⟩
  have hmem : blk ∈ blocks := by
    rw [← hsplit]
    exact List.mem_append_right _ List.mem_cons_self
  obtain ⟨b, hb, -, hblock⟩ := BlockIterator.seek_spec (.ofBuffer (blockContents blk)) rfl
    (fits.data blk hmem) fun e he => reachesTarget_goesOver tag (by
      obtain ⟨d, -, rfl⟩ := List.mem_map.mp he
      simp [Entry.toBlock])
  rw [dropWhile_goesOver tag ((List.pairwise_flatten.mp sorted).1 blk hmem) (tags blk hmem)] at hblock
  obtain ⟨⟨e, he, hreach⟩, -⟩ := stops_at_block sorted nonempty stops
  have hfound : (fromTarget target blk).map Entry.toBlock ≠ [] :=
    List.ne_nil_of_mem (List.mem_map_of_mem (List.mem_filter.mpr ⟨he, decide_eq_true hreach⟩))
  refine ⟨⟨layoutFile crc32c blocks filter, b, ix⟩, _, ?_, hindex.file, hindex.fits, hindex.nonempty,
    ⟨_, hblock hfound⟩, hindex.index⟩
  rw [seek, hix, Outcome.ok_bind]
  refine (if_pos (hindex.index_valid_iff.mpr (List.cons_ne_nil _ _))).trans ?_
  show (nextBlock _ >>= _) = _
  rw [hindex.nextBlock .empty, Outcome.ok_bind]
  show (BlockIterator.seek _ (.ofBuffer (blockContents blk)) _ >>= _) = _
  rw [hb]
  rfl

/-- What is left of a table after `seek(target)`, entry by entry. -/
def Enumerates (crc32c : Bytes → ℕ) (calls : List BuilderCall) (target : InternalKey)
    (out : List (Entry Bytes)) : Prop :=
  ∃ it it', TableIterator.new (BuilderCall.file crc32c calls)
      (BuilderCall.file crc32c calls).length = .ok it ∧
    it.seek internalKeyCompare target.encode = .ok it' ∧
    ∀ rounds, out.length ≤ rounds → it'.drain rounds = .ok (out.map Entry.toBlock)

/-- The iterator is deterministic. -/
theorem Enumerates.length_eq {calls : List BuilderCall} {out out' : List (Entry Bytes)}
    (h : Enumerates crc32c calls target out) (h' : Enumerates crc32c calls target out') :
    out.length = out'.length := by
  obtain ⟨it, it', hnew, hseek, hdrain⟩ := h
  obtain ⟨jt, jt', hnew', hseek', hdrain'⟩ := h'
  obtain rfl : it = jt := Outcome.ok.inj (hnew.symm.trans hnew')
  obtain rfl : it' = jt' := Outcome.ok.inj (hseek.symm.trans hseek')
  have hout := (hdrain _ (le_max_left _ _)).symm.trans (hdrain' _ (le_max_right _ _))
  simpa using congrArg List.length (Outcome.ok.inj hout)

/-- The tables of which the iterator is to be shown right: entries sorted by internal key, with tags
of 64 bits, in blocks and a file that fit the positions. -/
structure Searchable (crc32c : Bytes → ℕ) (calls : List BuilderCall) : Prop where
  plain : ∀ c ∈ calls, c.Plain
  sorted : (calls.flatMap BuilderCall.entries).Pairwise fun a b => a.key ≤ b.key
  tags : ∀ e ∈ calls.flatMap BuilderCall.entries, e.key.tag < 2 ^ 64
  file : (BuilderCall.file crc32c calls).length < 2 ^ 64
  data : ∀ blk ∈ BuilderCall.blocks [] calls, (blockContents blk).length < 2 ^ 32
  index : (blockBytes (indexEntries 0 (BuilderCall.blocks [] calls))).length < 2 ^ 32

namespace Searchable

variable {calls : List BuilderCall}

theorem flatten_blocks (calls : List BuilderCall) :
    (BuilderCall.blocks [] calls).flatten = calls.flatMap BuilderCall.entries := by
  rw [BuilderCall.flatten_blocks, List.nil_append]

theorem nonempty (calls : List BuilderCall) : ∀ blk ∈ BuilderCall.blocks [] calls, blk ≠ [] :=
  fun _ hblk => BuilderCall.nonempty_of_mem_blocks hblk

theorem mem_entries {blk : List (Entry Bytes)} (hblk : blk ∈ BuilderCall.blocks [] calls) {e : Entry Bytes}
    (he : e ∈ blk) : e ∈ calls.flatMap BuilderCall.entries := by
  rw [← flatten_blocks]
  exact List.mem_flatten_of_mem hblk he

/-- **Where all entries are below the target**, nothing is left. -/
theorem enumerates_nil (h : Searchable crc32c calls) (tag : target.tag < 2 ^ 64)
    (below : ∀ e ∈ calls.flatMap BuilderCall.entries, e.key < target) :
    Enumerates crc32c calls target [] := by
  by_cases hempty : calls.flatMap BuilderCall.entries = []
  · obtain ⟨it', hseek, hdrain⟩ := @seek_of_none target [] tag (by simp) (by simp)
      (Nat.two_pow_pos 32) rfl (BuilderCall.file crc32c calls)
    exact ⟨_, it', new_of_empty h.plain hempty h.file, hseek, fun rounds _ => hdrain rounds⟩
  · obtain ⟨filter, -, hfile⟩ := BuilderCall.file_layout crc32c h.plain hempty
    have hsmall := h.file
    have hnone : (BuilderCall.blocks [] calls).dropWhile (lastBelow Entry.key target) = [] := by
      refine List.dropWhile_eq_nil_iff.mpr fun blk hblk => ?_
      rw [lastBelow_eq (nonempty calls blk hblk)]
      exact decide_eq_true (below _ (mem_entries hblk (List.getLast_mem _)))
    obtain ⟨it', hseek, hdrain⟩ := seek_of_none tag (nonempty calls)
      (fun blk hblk e he => h.tags e (mem_entries hblk he)) h.index hnone (BuilderCall.file crc32c calls)
    rw [hfile] at hseek hsmall
    refine ⟨_, it', ?_, hseek, fun rounds _ => hdrain rounds⟩
    rw [hfile]
    exact new_layoutFile _ hsmall

/-- **Where an entry reaches the target**, some block is yielded from its first such entry on, then
from its start once more, and then the blocks behind it. -/
theorem enumerates_again (h : Searchable crc32c calls) (tag : target.tag < 2 ^ 64) {e : Entry Bytes}
    (mem : e ∈ calls.flatMap BuilderCall.entries) (reaches : target ≤ e.key) :
    ∃ blk rest, blk ≠ [] ∧
      fromTarget target (calls.flatMap BuilderCall.entries) = fromTarget target blk ++ rest ∧
      Enumerates crc32c calls target (fromTarget target blk ++ (blk ++ rest)) := by
  obtain ⟨filter, -, hfile⟩ := BuilderCall.file_layout crc32c h.plain (List.ne_nil_of_mem mem)
  have hsmall := h.file
  have hsorted := h.sorted
  rw [hfile] at hsmall
  rw [← flatten_blocks] at hsorted mem
  -- the block of an entry that reaches the target does not end below it
  have hstops : (BuilderCall.blocks [] calls).dropWhile (lastBelow Entry.key target) ≠ [] := by
    intro hnone
    obtain ⟨blk, hblk, he⟩ := List.mem_flatten.mp mem
    have hall := List.takeWhile_append_dropWhile (p := lastBelow Entry.key target)
      (l := BuilderCall.blocks [] calls)
    rw [hnone, List.append_nil] at hall
    rw [← hall] at hblk
    exact (below_of_mem_takeWhile hsorted (nonempty calls) blk hblk e he).not_ge reaches
  obtain ⟨blk, rest, hcut⟩ := List.exists_cons_of_ne_nil hstops
  have hmem : blk ∈ BuilderCall.blocks [] calls :=
    (List.dropWhile_sublist _).subset (hcut ▸ List.mem_cons_self)
  obtain ⟨it', bpre, hseek, hat⟩ := seek_of_block tag (nonempty calls) hsorted
    (fun blk hblk e he => h.tags e (mem_entries hblk he)) ⟨hsmall, h.data, h.index⟩ hcut
  obtain ⟨⟨d, hd, hreach⟩, hlater⟩ := stops_at_block hsorted (nonempty calls) hcut
  have hfound : (fromTarget target blk).map Entry.toBlock ≠ [] :=
    List.ne_nil_of_mem (List.mem_map_of_mem (List.mem_filter.mpr ⟨hd, decide_eq_true hreach⟩))
  refine ⟨blk, rest.flatten, nonempty calls blk hmem, ?_, _, it', ?_, hseek, fun rounds hrounds => ?_⟩
  · have hsplit := List.takeWhile_append_dropWhile (p := lastBelow Entry.key target)
      (l := BuilderCall.blocks [] calls)
    rw [hcut] at hsplit
    have hbefore : fromTarget target
        ((BuilderCall.blocks [] calls).takeWhile (lastBelow Entry.key target)).flatten = [] := by
      refine List.filter_eq_nil_iff.mpr fun d hd => ?_
      obtain ⟨b, hb, hd⟩ := List.mem_flatten.mp hd
      simpa using below_of_mem_takeWhile hsorted (nonempty calls) b hb d hd
    have hbehind : fromTarget target rest.flatten = rest.flatten := by
      refine List.filter_eq_self.mpr fun d hd => ?_
      obtain ⟨b, hb, hd⟩ := List.mem_flatten.mp hd
      exact decide_eq_true (hlater b hb d hd)
    have happend : ∀ a b : List (Entry Bytes),
        fromTarget target (a ++ b) = fromTarget target a ++ fromTarget target b :=
      fun a b => List.filter_append ..
    rw [← flatten_blocks, ← hsplit, List.flatten_append, List.flatten_cons, happend, happend, hbefore,
      hbehind, List.nil_append]
  · rw [hfile]
    exact new_layoutFile _ hsmall
  -- the drain starts at the entry found, and enters the block once more
  · have hleft : left ((fromTarget target blk).map Entry.toBlock) (blk :: rest)
        = (fromTarget target blk ++ (blk ++ rest.flatten)).map Entry.toBlock := by
      rw [left, List.flatten_cons, ← List.map_append]
    rw [hat.drain (.inl hfound) (by rwa [hleft, List.length_map]), hleft]

end Searchable

end TableIterator

/-- **`seek(target)` of a table iterator is right exactly if it finds nothing.**  After it, `next()`
until `valid()` is false goes over the entries that are not below the target, in order and each
once, if and only if there are none. -/
theorem tableIterator_seek_iff (crc32c : Bytes → ℕ) {calls : List BuilderCall}
    (h : TableIterator.Searchable crc32c calls) {target : InternalKey} (tag : target.tag < 2 ^ 64) :
    TableIterator.Enumerates crc32c calls target
        (fromTarget target (calls.flatMap BuilderCall.entries))
      ↔ ∀ e ∈ calls.flatMap BuilderCall.entries, e.key < target := by
  constructor
  · intro hright e he
    by_contra hreach
    obtain ⟨blk, rest, hne, hsplit, hagain⟩ := h.enumerates_again tag he (not_lt.mp hreach)
    have hcount := hright.length_eq hagain
    have hpos := List.length_pos_iff.mpr hne
    rw [hsplit] at hcount
    simp only [List.length_append] at hcount
    omega
  · intro hbelow
    have hnone : fromTarget target (calls.flatMap BuilderCall.entries) = [] :=
      List.filter_eq_nil_iff.mpr fun e he => by simpa using hbelow e he
    rw [hnone]
    exact h.enumerates_nil tag hbelow

/-- One entry. -/
def oneAdded : List BuilderCall := [.add (.ofWrite [1] 5 .kTypeValue) [7]]

theorem searchable_oneAdded : TableIterator.Searchable (fun _ => 0) oneAdded where
  plain := by simp [oneAdded, BuilderCall.Plain]
  sorted := List.pairwise_singleton _ _
  tags := by decide
  file := (BuilderCall.length_file_le (by simp [oneAdded, BuilderCall.Plain])
    (by simp [oneAdded, BuilderCall.entries])).trans_lt (by decide)
  data := by decide
  index := by decide

theorem searchable_threeAdded : TableIterator.Searchable (fun _ => 0) threeAdded where
  plain := by simp [threeAdded, BuilderCall.Plain]
  sorted := by decide
  tags := by decide
  file := (BuilderCall.length_file_le (by simp [threeAdded, BuilderCall.Plain])
    (by simp [threeAdded, BuilderCall.entries])).trans_lt (by decide)
  data := by decide
  index := by decide

/-- A target above all entries of two blocks, with two versions of a key. -/
theorem tableIterator_seek_above : (BuilderCall.blocks [] threeAdded).length = 2 ∧
    TableIterator.Enumerates (fun _ => 0) threeAdded (.ofWrite [3] 0 .kTypeValue)
      (fromTarget (.ofWrite [3] 0 .kTypeValue) (threeAdded.flatMap BuilderCall.entries)) :=
  ⟨rfl, (tableIterator_seek_iff (fun _ => 0) searchable_threeAdded (by decide)).mpr (by decide)⟩

/-- The only entry of a table is the target: it is yielded twice. -/
theorem tableIterator_seek_twice :
    ¬ TableIterator.Enumerates (fun _ => 0) oneAdded (.ofWrite [1] 5 .kTypeValue)
      (fromTarget (.ofWrite [1] 5 .kTypeValue) (oneAdded.flatMap BuilderCall.entries)) := by
  intro hright
  obtain ⟨blk, rest, hne, hsplit, hagain⟩ := searchable_oneAdded.enumerates_again (by decide)
    (List.mem_singleton_self _) le_rfl
  have hcount := hright.length_eq hagain
  have hpos := List.length_pos_iff.mpr hne
  rw [hsplit] at hcount
  simp only [List.length_append] at hcount
  omega

end Lsmkv
