import Lsmkv.Lib.SortedCut
import Lsmkv.RangeRead

/-!
# The iterators of blocks and tables

`TableIterator` (`src/include/block_format.h`) walks over a range of keys in a table.  It searches
the index block for the entries of the range, reads the data blocks under them and one more, and
searches what it has read again; both searches are those of `BlockIterator`, on bytes.  Where the
index has no entry in the range it falls back to the first block.

A `BlockIterator` is understood by the entries behind it, the entries it will yield, and the
entries after those (`BlockIterator.At`); each of its operations is one lemma about these lists.
The table iterator then yields the entries of the range exactly if the last key of some block is
in the range, or no block but the first has an entry of it (`tableIterator_yields_iff`): the index
holds last keys, so a range inside a later block has no entry in it, and the block is not read
(`tableIterator_misses`).  What a scan collects from a table, on lists of entries, is what the
iterator yields of the bytes of its file (`SSTFile.yields_range`).
-/

namespace Lsmkv

open ByteCode Files

/-! ## The block iterator -/

/-- `ExtractUserKey`, with its assertion. -/
def extractUserKey (internalKey : Bytes) : Outcome Bytes :=
  if 8 ≤ internalKey.length then .ok (internalKey.take (internalKey.length - 8)) else .fault

/-- `UserKeyComparator::compare`. -/
def userKeyCompare (a b : Bytes) : Outcome Ordering := do
  let a ← extractUserKey a
  let b ← extractUserKey b
  .ok (strCompare a b)

/-- `compare(K1, key) <= 0`: the first loop of `seek(K1, K2)` stops at the key. -/
def reachesKey (k1 key : Bytes) : Outcome Bool := do
  let c ← userKeyCompare k1 key
  .ok (decide (c ≠ .gt))

/-- `compare(K2, key) < 0`: the second loop of `seek(K1, K2)` stops at the key. -/
def passesKey (k2 key : Bytes) : Outcome Bool := do
  let c ← userKeyCompare k2 key
  .ok (decide (c = .lt))

/-- `BlockIterator`, with the comparator of user keys; `stop` is `end_`. -/
structure BlockIterator where
  buffer : Bytes
  cur : ℕ
  stop : ℕ

/-- How a loop of `seek` ends: at an entry, at the end of the buffer, or at bytes that are no
entry. -/
inductive SeekEnd
  | found (pos : ℕ)
  | exhausted
  | bad

/-- A loop of `seek` from a position: up to the first entry whose key `stops` it.  The number
bounds the rounds. -/
def seekLoop (stops : Bytes → Outcome Bool) : ℕ → ℕ → Bytes → Outcome SeekEnd
  | 0, _, input => if input.isEmpty then .ok .exhausted else .fault
  | rounds + 1, pos, input =>
      if input.isEmpty then .ok .exhausted
      else
        match parserBlock input with
        | .fault => .fault
        | .fail _ => .ok .bad
        | .ok (blockEntry, rest) =>
            if blockEntry.length < 8 then .ok .bad
            else do
              let key ← entryKey blockEntry
              if ← stops key then .ok (.found pos)
              else seekLoop stops rounds (pos + blockEntry.length) rest

namespace BlockIterator

/-- A default iterator, and one behind `reset()`. -/
def empty : BlockIterator := ⟨[], 0, 0⟩

/-- `seekToFirst()`; the positions are `uint32_t`. -/
def seekToFirst (it : BlockIterator) : BlockIterator :=
  { it with cur := 0, stop := it.buffer.length % 2 ^ 32 }

/-- `BlockIterator(s, cmp)`. -/
def ofBuffer (s : Bytes) : BlockIterator := seekToFirst ⟨s, 0, 0⟩

/-- `SetInValid()`. -/
def setInValid (it : BlockIterator) : BlockIterator := { it with cur := 1, stop := 0 }

/-- `valid()`. -/
def valid (it : BlockIterator) : Bool := decide (it.cur < it.stop)

/-- `next()`, with its assertion. -/
def next (it : BlockIterator) : Outcome BlockIterator :=
  if it.valid then
    match parserBlock (it.buffer.drop it.cur) with
    | .fault => .fault
    | .fail _ => .ok it.setInValid
    | .ok (blockEntry, _) => .ok { it with cur := (it.cur + blockEntry.length) % 2 ^ 32 }
  else .fault

/-- `AppendNext()`. -/
def appendNext (it : BlockIterator) : Outcome BlockIterator :=
  if it.cur ≤ it.stop ∧ it.stop ≠ it.buffer.length then
    match parserBlock (it.buffer.drop it.stop) with
    | .fault => .fault
    | .fail _ => .ok it.setInValid
    | .ok (blockEntry, _) =>
        if blockEntry.length < 8 then .ok it.setInValid
        else .ok { it with stop := (it.stop + blockEntry.length) % 2 ^ 32 }
  else .ok it

/-- The second loop of `seek(K1, K2)`, behind the position that the first one has found. -/
def seekStop (it : BlockIterator) (k2 : Bytes) : Outcome BlockIterator := do
  match ← seekLoop (passesKey k2) it.buffer.length it.cur (it.buffer.drop it.cur) with
  | .bad => .ok it.setInValid
  | .found pos => .ok { it with stop := pos % 2 ^ 32 }
  | .exhausted => .ok { it with stop := it.buffer.length % 2 ^ 32 }

/-- `seek(K1, K2)`. -/
def seekRange (it : BlockIterator) (k1 k2 : Bytes) : Outcome BlockIterator := do
  match ← seekLoop (reachesKey k1) it.buffer.length 0 it.buffer with
  | .bad => .ok it.setInValid
  | .exhausted =>
      let it := { it with cur := it.buffer.length % 2 ^ 32 }
      if it.cur = it.buffer.length then .ok it.setInValid else it.seekStop k2
  | .found pos =>
      let it := { it with cur := pos % 2 ^ 32 }
      if it.cur = it.buffer.length then .ok it.setInValid else it.seekStop k2

/-- `key()`. -/
def key (it : BlockIterator) : Outcome Bytes := do
  let keySize ← Outcome.ofOption (fixedDecode 4 (it.buffer.drop it.cur))
  .ok ((it.buffer.drop (it.cur + 8)).take keySize)

/-- `value()`. -/
def value (it : BlockIterator) : Outcome Bytes := blockValue it.buffer it.cur

end BlockIterator

/-! ## The table iterator -/

/-- `file_->Read(offset, n, ..)` into a string of `n` zeros. -/
def readInto (file : Bytes) (offset n : ℕ) : Bytes :=
  let bytes := readAt file offset n
  bytes ++ List.replicate (n - bytes.length) 0

/-- `TableIterator`. -/
structure TableIterator where
  file : Bytes
  blockIter : BlockIterator
  indexIter : BlockIterator

namespace TableIterator

/-- The constructor, on the bytes of the table's file. -/
def new (file : Bytes) (fileSize : ℕ) : Outcome TableIterator :=
  -- `file_size_ - kEncodedLength` wraps to a position `pread64` refuses.
  if fileSize < Footer.kEncodedLength then .ok ⟨file, .empty, .empty⟩
  else
    match Footer.decode (readAt file (fileSize - Footer.kEncodedLength) Footer.kEncodedLength) with
    | .fault => .fault
    | .fail _ => .ok ⟨file, .empty, .empty⟩
    | .ok footer =>
        .ok ⟨file, .empty,
          .ofBuffer (readInto file footer.indexHandle.offset footer.indexHandle.size)⟩

/-- `valid()`. -/
def valid (it : TableIterator) : Bool := it.indexIter.valid || it.blockIter.valid

/-- The loop of `seek(K1, K2)` over the index entries of the range: it collects the blocks under
them.  `none` is an index entry that cannot be decoded. -/
def readContinuous (file : Bytes) : ℕ → BlockIterator → Bytes → Outcome (Option (BlockIterator × Bytes))
  | 0, _, _ => .fault
  | rounds + 1, indexIter, block => do
      let value ← indexIter.value
      match BlockEntryInfo.decode value with
      | .fault => .fault
      | .fail _ => .ok none
      | .ok info => do
          let block := block ++ readInto file info.offset info.size
          let indexIter ← indexIter.next
          if indexIter.valid then readContinuous file rounds indexIter block
          else .ok (some (indexIter, block))

/-- `seek(K1, K2)`. -/
def seekRange (it : TableIterator) (k1 k2 : Bytes) : Outcome TableIterator := do
  let indexIter ← it.indexIter.seekRange k1 k2
  if indexIter.valid then do
    let indexIter ← indexIter.appendNext
    match ← readContinuous it.file indexIter.buffer.length indexIter [] with
    | none => .ok ⟨it.file, .empty, .empty⟩
    | some (indexIter, block) => do
        let blockIter ← (BlockIterator.ofBuffer block).seekRange k1 k2
        .ok ⟨it.file, blockIter, indexIter⟩
  else
    let indexIter := indexIter.seekToFirst
    if indexIter.valid then do
      let value ← indexIter.value
      match BlockEntryInfo.decode value with
      | .fault => .fault
      | .fail _ => .ok ⟨it.file, .empty, .empty⟩
      | .ok info => do
          let block := readInto it.file info.offset info.size
          let blockIter ← (BlockIterator.ofBuffer block).seekRange k1 k2
          .ok ⟨it.file, blockIter, .empty⟩
    else .ok ⟨it.file, .empty, indexIter⟩

/-- `NextBlock()`, with its assertion. -/
def nextBlock (it : TableIterator) : Outcome TableIterator :=
  if it.indexIter.valid then do
    let value ← it.indexIter.value
    match BlockEntryInfo.decode value with
    | .fault => .fault
    | .fail _ => .ok { it with indexIter := .empty }
    | .ok info => .ok { it with blockIter := .ofBuffer (readInto it.file info.offset info.size) }
  else .fault

/-- `seekToFirst()`. -/
def seekToFirst (it : TableIterator) : Outcome TableIterator :=
  let it := { it with indexIter := it.indexIter.seekToFirst }
  if it.indexIter.valid then do
    let it ← it.nextBlock
    if it.indexIter.valid then do
      let indexIter ← it.indexIter.next
      .ok { it with indexIter := indexIter }
    else .ok it
  else .ok it

/-- `next()`, with its assertion. -/
def next (it : TableIterator) : Outcome TableIterator :=
  if it.valid then do
    let blockIter ← if it.blockIter.valid then it.blockIter.next else .ok it.blockIter
    if blockIter.valid || !it.indexIter.valid then .ok { it with blockIter := blockIter }
    else do
      let it ← nextBlock { it with blockIter := .empty }
      if it.indexIter.valid then do
        let indexIter ← it.indexIter.next
        .ok { it with indexIter := indexIter }
      else .ok it
  else .fault

/-- The pairs `key()`, `value()` up to `valid()` being false; the number bounds the rounds. -/
def drain : ℕ → TableIterator → Outcome (List (Bytes × Bytes))
  | 0, it => if it.valid then .fault else .ok []
  | rounds + 1, it =>
      if it.valid then
        if it.blockIter.valid then do
          let key ← it.blockIter.key
          let value ← it.blockIter.value
          let it ← it.next
          let rest ← drain rounds it
          .ok ((key, value) :: rest)
        else .fault
      else .ok []

end TableIterator

/-! ## Where a block iterator stands -/

/-- The iterator has the entries `pre` behind it, will yield `mid`, and leaves out `post`. -/
structure BlockIterator.At (it : BlockIterator) (pre mid post : List (Bytes × Bytes)) : Prop where
  buffer : it.buffer = blockBytes (pre ++ (mid ++ post))
  cur : it.cur = (blockBytes pre).length
  stop : it.stop = (blockBytes (pre ++ mid)).length
  small : it.buffer.length < 2 ^ 32

namespace BlockIterator

variable {it : BlockIterator} {pre mid post es : List (Bytes × Bytes)} {e : Bytes × Bytes}

theorem At.fits (h : it.At pre mid post) (mem : e ∈ pre ++ (mid ++ post)) : EntryFits e :=
  fits_of_mem_blockBytes mem (h.buffer ▸ h.small)

theorem At.valid_iff (h : it.At pre mid post) : it.valid = true ↔ mid ≠ [] := by
  have hlen : (blockBytes (pre ++ mid)).length = (blockBytes pre).length + (blockBytes mid).length := by
    rw [blockBytes_append, List.length_append]
  rw [valid, decide_eq_true_eq, h.cur, h.stop, hlen, Nat.lt_add_right_iff_pos, List.length_pos_iff,
    ne_eq, blockBytes_eq_nil]

theorem At.drop_cur (h : it.At pre mid post) : it.buffer.drop it.cur = blockBytes (mid ++ post) := by
  rw [h.buffer, h.cur, blockBytes_append, List.drop_left]

theorem At.drop_stop (h : it.At pre mid post) : it.buffer.drop it.stop = blockBytes post := by
  rw [h.buffer, h.stop, ← List.append_assoc, blockBytes_append (pre ++ mid), List.drop_left]

/-- `next()` goes over one entry. -/
theorem At.next (h : it.At pre (e :: mid) post) :
    ∃ it', it.next = .ok it' ∧ it'.At (pre ++ [e]) mid post := by
  have hparse : parserBlock (it.buffer.drop it.cur) = .ok (entryBytes e, blockBytes (mid ++ post)) := by
    rw [h.drop_cur, List.cons_append, blockBytes_cons]
    exact parserBlock_entryBytes (h.fits (by simp)) _
  have hcur : (blockBytes (pre ++ [e])).length = it.cur + (entryBytes e).length := by
    rw [blockBytes_append, List.length_append, h.cur, blockBytes_cons]
    simp [blockBytes]
  have hbuffer : it.buffer = blockBytes (pre ++ [e] ++ (mid ++ post)) := by
    rw [h.buffer, List.append_assoc]
    rfl
  have hlt : it.cur + (entryBytes e).length < 2 ^ 32 := by
    have hsmall := h.small
    rw [hbuffer, blockBytes_append, List.length_append, hcur] at hsmall
    omega
  refine ⟨{ it with cur := (it.cur + (entryBytes e).length) % 2 ^ 32 }, ?_, hbuffer, ?_, ?_, h.small⟩
  · rw [BlockIterator.next, if_pos (h.valid_iff.mpr (by simp)), hparse]
  · rw [hcur, Nat.mod_eq_of_lt hlt]
  · rw [h.stop, List.append_assoc]
    rfl

/-- `key()` and `value()` are those of the next entry. -/
theorem At.head (h : it.At pre (e :: mid) post) : it.key = .ok e.1 ∧ it.value = .ok e.2 := by
  have hfits := h.fits (e := e) (by simp)
  simp only [EntryFits] at hfits
  have hdrop : ∀ n, it.buffer.drop (it.cur + n) = (entryBytes e ++ blockBytes (mid ++ post)).drop n := by
    intro n
    rw [← List.drop_drop, h.drop_cur, List.cons_append, blockBytes_cons]
  have hkey : fixedDecode 4 (it.buffer.drop it.cur) = some e.1.length := by
    rw [h.drop_cur, List.cons_append, blockBytes_cons, fixedDecode_key_size,
      Nat.mod_eq_of_lt (by omega)]
  have hvalue : fixedDecode 4 (it.buffer.drop (it.cur + 4)) = some e.2.length := by
    rw [hdrop, fixedDecode_value_size, Nat.mod_eq_of_lt (by omega)]
  have hbytes : entryBytes e ++ blockBytes (mid ++ post)
      = (fixedEncode 4 e.1.length ++ fixedEncode 4 e.2.length)
        ++ (e.1 ++ (e.2 ++ blockBytes (mid ++ post))) := by
    simp [entryBytes]
  have hrest : it.buffer.drop (it.cur + 8) = e.1 ++ (e.2 ++ blockBytes (mid ++ post)) := by
    rw [hdrop, hbytes]
    exact List.drop_left' (by simp)
  constructor
  · rw [BlockIterator.key, hkey, Outcome.ofOption_some, Outcome.ok_bind, hrest, List.take_left]
  · rw [BlockIterator.value, blockValue, hkey, hvalue, Outcome.ofOption_some, Outcome.ok_bind,
      Outcome.ofOption_some, Outcome.ok_bind, ← List.drop_drop, hrest, List.drop_left, List.take_left]

/-- `AppendNext()` takes one more entry into the range, if there is one. -/
theorem At.appendNext (h : it.At pre mid post) :
    ∃ it', it.appendNext = .ok it' ∧ it'.At pre (mid ++ post.take 1) (post.drop 1) := by
  have hle : it.cur ≤ it.stop := by
    rw [h.cur, h.stop, blockBytes_append, List.length_append]
    exact Nat.le_add_right _ _
  cases post with
  | nil =>
      have hend : it.stop = it.buffer.length := by
        rw [h.buffer, h.stop, List.append_nil]
      refine ⟨it, ?_, ?_⟩
      · rw [BlockIterator.appendNext, if_neg fun hne => hne.2 hend]
      · simpa using h
  | cons e post =>
      have hbuffer : it.buffer = blockBytes (pre ++ ((mid ++ [e]) ++ post)) := by
        rw [h.buffer, List.append_assoc mid]
        rfl
      have hstop : (blockBytes (pre ++ (mid ++ [e]))).length = it.stop + (entryBytes e).length := by
        rw [← List.append_assoc, blockBytes_append (pre ++ mid), List.length_append, h.stop,
          blockBytes_cons, blockBytes_nil, List.append_nil]
      have hlt : it.stop + (entryBytes e).length + (blockBytes post).length < 2 ^ 32 := by
        have hsmall := h.small
        rwa [hbuffer, ← List.append_assoc, blockBytes_append (pre ++ (mid ++ [e])),
          List.length_append, hstop] at hsmall
      have hne : it.stop ≠ it.buffer.length := by
        rw [hbuffer, ← List.append_assoc, blockBytes_append (pre ++ (mid ++ [e])),
          List.length_append, hstop, length_entryBytes]
        omega
      have hparse : parserBlock (it.buffer.drop it.stop) = .ok (entryBytes e, blockBytes post) := by
        rw [h.drop_stop, blockBytes_cons]
        exact parserBlock_entryBytes (h.fits (by simp)) _
      have hheader : ¬ (entryBytes e).length < 8 := by
        rw [length_entryBytes]
        omega
      refine ⟨{ it with stop := (it.stop + (entryBytes e).length) % 2 ^ 32 }, ?_, hbuffer, h.cur, ?_,
        h.small⟩
      · rw [BlockIterator.appendNext, if_pos ⟨hle, hne⟩, hparse]
        simp only [if_neg hheader]
      · show (it.stop + (entryBytes e).length) % 2 ^ 32 = (blockBytes (pre ++ (mid ++ [e]))).length
        rw [hstop, Nat.mod_eq_of_lt (by omega)]

end BlockIterator

/-! ## The search in a block -/

/-- The user key of an entry of a block. -/
def blockUserKey (e : Bytes × Bytes) : Bytes := e.1.take (e.1.length - 8)

theorem extractUserKey_encode (k : InternalKey) : extractUserKey k.encode = .ok k.userKey := by
  rw [extractUserKey, if_pos (by simp), InternalKey.length_encode, Nat.add_sub_cancel,
    InternalKey.encode, List.take_left]

theorem userKeyCompare_encode (k : InternalKey) {e : Bytes × Bytes} (long : 8 ≤ e.1.length) :
    userKeyCompare k.encode e.1 = .ok (strCompare k.userKey (blockUserKey e)) := by
  rw [userKeyCompare, extractUserKey_encode, extractUserKey, if_pos long]
  rfl

/-- **A loop of `seek` stops at the first entry that it is to stop at.** -/
theorem seekLoop_blockBytes {stops : Bytes → Outcome Bool} {goesOn : Bytes × Bytes → Bool}
    {es : List (Bytes × Bytes)} (fits : ∀ e ∈ es, EntryFits e)
    (agree : ∀ e ∈ es, stops e.1 = .ok (!goesOn e)) {rounds : ℕ} (enough : es.length ≤ rounds) (pos : ℕ) :
    seekLoop stops rounds pos (blockBytes es) = .ok (if es.dropWhile goesOn = [] then .exhausted
      else .found (pos + (blockBytes (es.takeWhile goesOn)).length)) := by
  induction es generalizing rounds pos with
  | nil => cases rounds <;> rfl
  | cons e es ih =>
      cases rounds with
      | zero => simp at enough
      | succ rounds =>
          have hempty : (blockBytes (e :: es)).isEmpty = false := by
            rw [List.isEmpty_eq_false_iff, ne_eq, blockBytes_eq_nil]
            exact List.cons_ne_nil _ _
          have hheader : ¬ (entryBytes e).length < 8 := by
            rw [length_entryBytes]
            omega
          rw [seekLoop, hempty, if_neg Bool.false_ne_true, blockBytes_cons,
            parserBlock_entryBytes (fits e List.mem_cons_self)]
          simp only [if_neg hheader, entryKey_entryBytes (fits e List.mem_cons_self), Outcome.ok_bind,
            agree e List.mem_cons_self]
          cases hgoes : goesOn e with
          | false => simp [hgoes]
          | true =>
              simp only [Bool.not_true, Bool.false_eq_true, if_false]
              rw [ih (fun d hd => fits d (List.mem_cons_of_mem _ hd))
                (fun d hd => agree d (List.mem_cons_of_mem _ hd))
                (Nat.le_of_succ_le_succ (by simpa using enough)),
                List.dropWhile_cons_of_pos hgoes, List.takeWhile_cons_of_pos hgoes, blockBytes_cons,
                List.length_append, Nat.add_assoc]

namespace BlockIterator

variable {pre mid post es : List (Bytes × Bytes)}

/-- The second loop of `seek(K1, K2)` ends the range behind the last entry that is not above `K2`. -/
theorem seekStop_spec (it : BlockIterator) (k2 : InternalKey) (buffer : it.buffer = blockBytes (pre ++ es))
    (cur : it.cur = (blockBytes pre).length) (small : it.buffer.length < 2 ^ 32)
    (long : ∀ e ∈ es, 8 ≤ e.1.length) :
    ∃ it', it.seekStop k2.encode = .ok it' ∧
      it'.At pre (es.takeWhile fun e => decide (blockUserKey e ≤ k2.userKey))
        (es.dropWhile fun e => decide (blockUserKey e ≤ k2.userKey)) := by
  set goesOn : Bytes × Bytes → Bool := fun e => decide (blockUserKey e ≤ k2.userKey)
  have hdrop : it.buffer.drop it.cur = blockBytes es := by
    rw [buffer, cur, blockBytes_append, List.drop_left]
  have hagree : ∀ e ∈ es, passesKey k2.encode e.1 = .ok (!goesOn e) := by
    intro e he
    rw [passesKey, userKeyCompare_encode k2 (long e he), Outcome.ok_bind]
    by_cases hle : blockUserKey e ≤ k2.userKey
    · simp [goesOn, hle, strCompare_eq_lt]
    · simp [goesOn, hle, strCompare_eq_lt, not_le.mp hle]
  have henough : es.length ≤ it.buffer.length := by
    rw [buffer, blockBytes_append, List.length_append]
    exact (length_le_blockBytes es).trans (Nat.le_add_left _ _)
  have hloop := seekLoop_blockBytes (fun e he => fits_of_mem_blockBytes (List.mem_append_right pre he)
    (buffer ▸ small)) hagree henough it.cur
  have hsplit : es.takeWhile goesOn ++ es.dropWhile goesOn = es := List.takeWhile_append_dropWhile
  have hbuffer : it.buffer = blockBytes (pre ++ (es.takeWhile goesOn ++ es.dropWhile goesOn)) := by
    rw [hsplit, buffer]
  have hstop : (blockBytes (pre ++ es.takeWhile goesOn)).length
      = it.cur + (blockBytes (es.takeWhile goesOn)).length := by
    rw [blockBytes_append, List.length_append, cur]
  rw [seekStop, hdrop, hloop, Outcome.ok_bind]
  by_cases hend : es.dropWhile goesOn = []
  · rw [if_pos hend]
    refine ⟨_, rfl, hbuffer, cur, ?_, small⟩
    show it.buffer.length % 2 ^ 32 = _
    rw [Nat.mod_eq_of_lt small, hbuffer, hend, List.append_nil]
  · rw [if_neg hend]
    refine ⟨_, rfl, hbuffer, cur, ?_, small⟩
    show (it.cur + (blockBytes (es.takeWhile goesOn)).length) % 2 ^ 32 = _
    rw [hstop, Nat.mod_eq_of_lt]
    rw [hbuffer, ← List.append_assoc, blockBytes_append (pre ++ _), List.length_append, hstop] at small
    omega

/-- **`seek(K1, K2)`** leaves the entries below `K1` behind, and ends the range before the first
entry above `K2`.  Where all entries are below `K1` the iterator is invalid. -/
theorem seekRange_spec (it : BlockIterator) (buffer : it.buffer = blockBytes es) (small : it.buffer.length < 2 ^ 32)
    (long : ∀ e ∈ es, 8 ≤ e.1.length) (k1 k2 : InternalKey) :
    ∃ it', it.seekRange k1.encode k2.encode = .ok it' ∧ it'.buffer = it.buffer ∧
      (es.dropWhile (fun e => decide (blockUserKey e < k1.userKey)) = [] → it'.valid = false) ∧
      (es.dropWhile (fun e => decide (blockUserKey e < k1.userKey)) ≠ [] →
        it'.At (es.takeWhile fun e => decide (blockUserKey e < k1.userKey))
          ((es.dropWhile fun e => decide (blockUserKey e < k1.userKey)).takeWhile
            fun e => decide (blockUserKey e ≤ k2.userKey))
          ((es.dropWhile fun e => decide (blockUserKey e < k1.userKey)).dropWhile
            fun e => decide (blockUserKey e ≤ k2.userKey))) := by
  set goesOn : Bytes × Bytes → Bool := fun e => decide (blockUserKey e < k1.userKey)
  have hagree : ∀ e ∈ es, reachesKey k1.encode e.1 = .ok (!goesOn e) := by
    intro e he
    rw [reachesKey, userKeyCompare_encode k1 (long e he), Outcome.ok_bind]
    by_cases hlt : blockUserKey e < k1.userKey
    · simp [goesOn, hlt, strCompare_eq_gt]
    · simp [goesOn, hlt, strCompare_eq_gt]
  have henough : es.length ≤ it.buffer.length := buffer ▸ length_le_blockBytes es
  have hloop := seekLoop_blockBytes (fun e he => fits_of_mem_blockBytes he (buffer ▸ small)) hagree
    henough 0
  rw [← buffer] at hloop
  rw [seekRange, hloop, Outcome.ok_bind]
  -- no entry reaches the range: `cur_` is at the end, and the iterator is made invalid
  by_cases hend : es.dropWhile goesOn = []
  · rw [if_pos hend]
    refine ⟨it.setInValid, ?_, rfl, fun _ => rfl, fun hne => absurd hend hne⟩
    simp only [Nat.mod_eq_of_lt small, if_true]
    rfl
  · rw [if_neg hend, Nat.zero_add]
    have hsplit : es.takeWhile goesOn ++ es.dropWhile goesOn = es := List.takeWhile_append_dropWhile
    have hlength : it.buffer.length
        = (blockBytes (es.takeWhile goesOn)).length + (blockBytes (es.dropWhile goesOn)).length := by
      rw [buffer, ← List.length_append, ← blockBytes_append, hsplit]
    have hpos : 0 < (blockBytes (es.dropWhile goesOn)).length := by
      rw [List.length_pos_iff, ne_eq, blockBytes_eq_nil]
      exact hend
    have hcur : (blockBytes (es.takeWhile goesOn)).length % 2 ^ 32
        = (blockBytes (es.takeWhile goesOn)).length := Nat.mod_eq_of_lt (by omega)
    have hne : (blockBytes (es.takeWhile goesOn)).length ≠ it.buffer.length := by omega
    obtain ⟨it', hit', hat⟩ := seekStop_spec
      { it with cur := (blockBytes (es.takeWhile goesOn)).length } k2
      (by rw [hsplit]; exact buffer) rfl small
      fun e he => long e ((List.dropWhile_sublist _).subset he)
    refine ⟨it', ?_, ?_, fun hnil => absurd hnil hend, fun _ => hat⟩
    · simp only [hcur, if_neg hne]
      exact hit'
    · rw [hat.buffer, List.takeWhile_append_dropWhile, hsplit, buffer]

end BlockIterator

/-! ## Reading the blocks of the range -/

namespace TableIterator

variable {crc32c : Bytes → ℕ} {filter : Bytes}

theorem readInto_of_eq {file raw : Bytes} {offset n : ℕ} (read : readAt file offset n = raw)
    (length : n = raw.length) : readInto file offset n = raw := by
  rw [readInto, read, length]
  simp

/-- A range of entries that a block iterator will yield is what the table iterator yields, when its
index is used up. -/
theorem drain_of_at (it : TableIterator) {pre mid post : List (Bytes × Bytes)}
    (used : it.indexIter.valid = false) (h : it.blockIter.At pre mid post) {rounds : ℕ}
    (enough : mid.length ≤ rounds) : it.drain rounds = .ok mid := by
  induction mid generalizing it pre rounds with
  | nil =>
      have hblock : it.blockIter.valid = false := by
        rw [← Bool.not_eq_true, h.valid_iff]
        simp
      have hvalid : it.valid = false := by rw [valid, used, hblock, Bool.or_self]
      cases rounds <;> simp [drain, hvalid]
  | cons e mid ih =>
      cases rounds with
      | zero => simp at enough
      | succ rounds =>
          have hblock : it.blockIter.valid = true := h.valid_iff.mpr (List.cons_ne_nil _ _)
          have hvalid : it.valid = true := by rw [valid, hblock, Bool.or_true]
          obtain ⟨hkey, hvalue⟩ := h.head
          obtain ⟨b, hb, hat⟩ := h.next
          have hnext : it.next = .ok { it with blockIter := b } := by
            rw [next, if_pos hvalid, if_pos hblock, hb, Outcome.ok_bind, used]
            simp
          rw [drain, if_pos hvalid, if_pos hblock, hkey, hvalue, hnext]
          simp only [Outcome.ok_bind]
          rw [ih { it with blockIter := b } used hat (Nat.le_of_succ_le_succ (by simpa using enough))]
          rfl

/-- An iterator that is used up yields nothing. -/
theorem drain_of_invalid {it : TableIterator} (used : it.indexIter.valid = false)
    (block : it.blockIter.valid = false) (rounds : ℕ) : it.drain rounds = .ok [] := by
  have hvalid : it.valid = false := by rw [valid, used, block, Bool.or_self]
  cases rounds <;> simp [drain, hvalid]

/-- What an index entry leads to. -/
theorem decode_indexEntry (bpre bpost : List (List (Entry Bytes))) {blk : List (Entry Bytes)}
    (small : (layoutFile crc32c (bpre ++ blk :: bpost) filter).length < 2 ^ 64) :
    ∃ info, BlockEntryInfo.decode (indexEntry (dataBytes crc32c bpre).length blk).2 = .ok info ∧
      readInto (layoutFile crc32c (bpre ++ blk :: bpost) filter) info.offset info.size
        = blockContents blk := by
  refine ⟨⟨(dataBytes crc32c bpre).length, (blockContents blk).length⟩, ?_,
    readInto_of_eq readAt_data rfl⟩
  rw [length_layoutFile, dataBytes_append, dataBytes_cons, List.length_append, List.length_append,
    TableBuilder.length_rawBlock] at small
  have hdecode := BlockEntryInfo.decode_encode_append
    (h := ⟨(dataBytes crc32c bpre).length, (blockContents blk).length⟩) (by dsimp only; omega)
    (by dsimp only; omega) []
  rwa [List.append_nil] at hdecode

/-- **The loop over the index entries of the range reads the blocks under them.** -/
theorem readContinuous_spec (bpre : List (List (Entry Bytes))) {blks bpost : List (List (Entry Bytes))}
    (small : (layoutFile crc32c (bpre ++ (blks ++ bpost)) filter).length < 2 ^ 32)
    {indexIter : BlockIterator} {pre post : List (Bytes × Bytes)}
    (h : indexIter.At pre (indexEntries (dataBytes crc32c bpre).length blks) post) (ne : blks ≠ [])
    {rounds : ℕ} (enough : blks.length ≤ rounds) (block : Bytes) :
    ∃ it', readContinuous (layoutFile crc32c (bpre ++ (blks ++ bpost)) filter) rounds indexIter block
        = .ok (some (it', block ++ blockContents blks.flatten)) ∧ it'.valid = false := by
  induction blks generalizing bpre pre indexIter rounds block with
  | nil => exact absurd rfl ne
  | cons blk blks ih =>
      cases rounds with
      | zero => simp at enough
      | succ rounds =>
          rw [indexEntries] at h
          obtain ⟨-, hvalue⟩ := h.head
          obtain ⟨it', hit', hat⟩ := h.next
          obtain ⟨info, hinfo, hread⟩ := decode_indexEntry bpre (blks ++ bpost)
            (small.trans (by decide))
          have hoffset : (dataBytes crc32c (bpre ++ [blk])).length = (dataBytes crc32c bpre).length
              + ((blockContents blk).length + kBlockTrailerSize) := by
            simp [TableBuilder.length_rawBlock]
          rw [← hoffset] at hat
          rw [readContinuous, hvalue]
          simp only [Outcome.ok_bind, hinfo, List.cons_append, hread, hit']
          cases blks with
          | nil =>
              have hvalid : it'.valid = false := by
                rw [← Bool.not_eq_true, hat.valid_iff]
                simp [indexEntries]
              refine ⟨it', ?_, hvalid⟩
              simp [hvalid]
          | cons blk' blks =>
              have hvalid : it'.valid = true := hat.valid_iff.mpr (by simp [indexEntries])
              have hassoc : bpre ++ blk :: (blk' :: blks ++ bpost)
                  = bpre ++ [blk] ++ (blk' :: blks ++ bpost) := by simp
              simp only [hvalid, if_true]
              rw [hassoc]
              obtain ⟨it'', hit'', hinvalid⟩ := ih (bpre ++ [blk]) (by rw [← hassoc]; exact small)
                hat (List.cons_ne_nil _ _) (Nat.le_of_succ_le_succ (by simpa using enough))
                (block ++ blockContents blk)
              refine ⟨it'', ?_, hinvalid⟩
              rw [hit'']
              simp

end TableIterator

/-- The user key of the last entry of a block, under which the index lists it. -/
def lastUserKey {β : Type} (blk : List (Entry β)) : Bytes := (blk.getLast?.map (·.key.userKey)).getD []

/-- The entries of a range, in a sorted list. -/
def rangeEntries {β : Type} (k1 k2 : Bytes) (es : List (Entry β)) : List (Entry β) :=
  (es.dropWhile fun e => decide (e.key.userKey < k1)).takeWhile fun e => decide (e.key.userKey ≤ k2)

/-- The blocks that `TableIterator::seek(K1, K2)` reads. -/
def rangeBlocks {β : Type} (k1 k2 : Bytes) (blocks : List (List (Entry β))) : List (List (Entry β)) :=
  let cur := blocks.dropWhile fun blk => decide (lastUserKey blk < k1)
  let inRange := cur.takeWhile fun blk => decide (lastUserKey blk ≤ k2)
  if inRange = [] then blocks.take 1 else cur.take (inRange.length + 1)

/-- The blocks that are read are blocks of the table. -/
theorem rangeBlocks_sublist {β : Type} (k1 k2 : Bytes) (blocks : List (List (Entry β))) :
    (rangeBlocks k1 k2 blocks).Sublist blocks := by
  simp only [rangeBlocks]
  split
  · exact List.take_sublist _ _
  · exact (List.take_sublist _ _).trans (List.dropWhile_sublist _)

theorem blockUserKey_toBlock (e : Entry Bytes) : blockUserKey e.toBlock = e.key.userKey := by
  simp [blockUserKey, Entry.toBlock, InternalKey.encode]

theorem blockUserKey_indexEntry (offset : ℕ) (blk : List (Entry Bytes)) :
    blockUserKey (indexEntry offset blk) = lastUserKey blk := by
  cases hlast : blk.getLast? with
  | none => simp [blockUserKey, indexEntry, lastKeyBytes, lastUserKey, hlast]
  | some e => simp [blockUserKey, indexEntry, lastKeyBytes, lastUserKey, hlast, InternalKey.encode]

/-- A cut of the index is one of the blocks. -/
theorem indexEntries_cut_of (crc32c : Bytes → ℕ) {p : Bytes × Bytes → Bool} {q : List (Entry Bytes) → Bool}
    {blocks : List (List (Entry Bytes))} (agree : ∀ blk ∈ blocks, ∀ offset, p (indexEntry offset blk) = q blk)
    (offset : ℕ) : (indexEntries offset blocks).takeWhile p = indexEntries offset (blocks.takeWhile q) ∧
      (indexEntries offset blocks).dropWhile p
        = indexEntries (offset + (dataBytes crc32c (blocks.takeWhile q)).length) (blocks.dropWhile q) := by
  induction blocks generalizing offset with
  | nil => exact ⟨rfl, rfl⟩
  | cons blk blocks ih =>
      obtain ⟨htake, hdrop⟩ := ih (fun b hb => agree b (List.mem_cons_of_mem _ hb))
        (offset + ((blockContents blk).length + kBlockTrailerSize))
      have hblk := agree blk List.mem_cons_self offset
      rw [indexEntries]
      by_cases hq : q blk = true
      · simp only [List.takeWhile_cons, List.dropWhile_cons, hblk, hq, if_true, htake, hdrop,
          dataBytes_cons, List.length_append, TableBuilder.length_rawBlock, Nat.add_assoc, indexEntries,
          and_self]
      · simp only [List.takeWhile_cons, List.dropWhile_cons, hblk, hq, if_false, dataBytes_nil,
          List.length_nil, Nat.add_zero, indexEntries, and_self, Bool.false_eq_true]

/-- A cut of the index at a user key is one of the blocks. -/
theorem indexEntries_cut (crc32c : Bytes → ℕ) (p : Bytes → Bool) (offset : ℕ)
    (blocks : List (List (Entry Bytes))) :
    (indexEntries offset blocks).takeWhile (fun e => p (blockUserKey e))
        = indexEntries offset (blocks.takeWhile fun blk => p (lastUserKey blk)) ∧
      (indexEntries offset blocks).dropWhile (fun e => p (blockUserKey e))
        = indexEntries (offset + (dataBytes crc32c
          (blocks.takeWhile fun blk => p (lastUserKey blk))).length)
          (blocks.dropWhile fun blk => p (lastUserKey blk)) :=
  indexEntries_cut_of crc32c (fun blk _ offset => by rw [blockUserKey_indexEntry]) offset

theorem indexEntries_take_one (offset : ℕ) (blocks : List (List (Entry Bytes))) :
    (indexEntries offset blocks).take 1 = indexEntries offset (blocks.take 1) := by
  cases blocks with
  | nil => rfl
  | cons blk blocks => rfl

theorem length_indexEntries (offset : ℕ) (blocks : List (List (Entry Bytes))) :
    (indexEntries offset blocks).length = blocks.length := by
  induction blocks generalizing offset with
  | nil => rfl
  | cons blk blocks ih => rw [indexEntries, List.length_cons, ih, List.length_cons]

theorem indexEntries_eq_nil {offset : ℕ} {blocks : List (List (Entry Bytes))} :
    indexEntries offset blocks = [] ↔ blocks = [] := by
  cases blocks with
  | nil => simp [indexEntries]
  | cons blk blocks => simp [indexEntries]

/-- The keys of the index are internal keys. -/
theorem length_of_mem_indexEntries {offset : ℕ} {blocks : List (List (Entry Bytes))}
    (nonempty : ∀ blk ∈ blocks, blk ≠ []) : ∀ e ∈ indexEntries offset blocks, 8 ≤ e.1.length := by
  induction blocks generalizing offset with
  | nil => simp [indexEntries]
  | cons blk blocks ih =>
      intro e he
      rcases List.mem_cons.mp he with rfl | he
      · have hlast := List.getLast?_eq_getLast_of_ne_nil (nonempty blk List.mem_cons_self)
        simp [indexEntry, lastKeyBytes, hlast]
      · exact ih (fun b hb => nonempty b (List.mem_cons_of_mem _ hb)) e he

namespace TableIterator

variable {crc32c : Bytes → ℕ} {filter : Bytes}

/-- **The second search**, in the contents of the blocks that were read. -/
theorem seek_contents {es : List (Entry Bytes)} (small : (blockContents es).length < 2 ^ 32)
    (k1 k2 : InternalKey) :
    ∃ b, (BlockIterator.ofBuffer (blockContents es)).seekRange k1.encode k2.encode = .ok b ∧
      ∀ (file : Bytes) (indexIter : BlockIterator), indexIter.valid = false → ∀ rounds,
        es.length ≤ rounds → drain rounds ⟨file, b, indexIter⟩
          = .ok ((rangeEntries k1.userKey k2.userKey es).map Entry.toBlock) := by
  have hdrop : (es.map Entry.toBlock).dropWhile (fun e => decide (blockUserKey e < k1.userKey))
      = (es.dropWhile fun e => decide (e.key.userKey < k1.userKey)).map Entry.toBlock := by
    rw [List.dropWhile_map]
    simp only [Function.comp_def, blockUserKey_toBlock]
  obtain ⟨b, hb, -, hnil, hat⟩ := BlockIterator.seekRange_spec
    (.ofBuffer (blockContents es)) (rfl : _ = blockBytes (es.map Entry.toBlock)) small
    (by simp [Entry.toBlock]) k1 k2
  rw [hdrop] at hnil hat
  refine ⟨b, hb, fun file indexIter hused rounds henough => ?_⟩
  by_cases hend : es.dropWhile (fun e => decide (e.key.userKey < k1.userKey)) = []
  · rw [drain_of_invalid hused (hnil (by rw [hend]; rfl)), rangeEntries, hend]
    rfl
  · have hdrain := @drain_of_at ⟨file, b, indexIter⟩ _ _ _ hused
      (hat (by rwa [ne_eq, List.map_eq_nil_iff])) rounds
    rw [List.takeWhile_map] at hdrain
    simp only [Function.comp_def, blockUserKey_toBlock] at hdrain
    refine hdrain ?_
    rw [List.length_map]
    exact ((List.takeWhile_sublist _).trans (List.dropWhile_sublist _)).length_le.trans henough

/-- The constructor loads the index. -/
theorem new_layoutFile (blocks : List (List (Entry Bytes)))
    (small : (layoutFile crc32c blocks filter).length < 2 ^ 64) :
    TableIterator.new (layoutFile crc32c blocks filter) (layoutFile crc32c blocks filter).length
      = .ok ⟨layoutFile crc32c blocks filter, .empty, .ofBuffer (blockBytes (indexEntries 0 blocks))⟩ := by
  have hlen := length_layoutFile crc32c blocks filter
  have hfits : (layoutFooter crc32c blocks filter).Fits := by
    simp only [Footer.Fits, layoutFooter, List.mem_cons, List.not_mem_nil, or_false,
      forall_eq_or_imp, forall_eq]
    omega
  have hnot : ¬ (layoutFile crc32c blocks filter).length < Footer.kEncodedLength := by omega
  rw [new, if_neg hnot, readAt_footer, Footer.decode_encode hfits]
  simp only [layoutFooter, readInto_of_eq readAt_index rfl]

/-- The contents of blocks of a table are shorter than its file. -/
theorem length_blockContents_lt (crc32c : Bytes → ℕ) (filter : Bytes) {blocks read : List (List (Entry Bytes))} (sub : read.Sublist blocks) :
    (blockContents read.flatten).length < (layoutFile crc32c blocks filter).length := by
  have hsub : (blockContents read.flatten).length ≤ (blockContents blocks.flatten).length := by
    simp only [blockContents, blockBytes]
    exact (((sub.flatten.map _).map _).flatten).length_le
  have hdata : (blockContents blocks.flatten).length ≤ (dataBytes crc32c blocks).length := by
    clear hsub sub
    induction blocks with
    | nil => simp [blockContents]
    | cons blk blocks ih =>
        simp only [List.flatten_cons, blockContents_append, dataBytes_cons, List.length_append,
          TableBuilder.length_rawBlock]
        omega
  rw [length_layoutFile]
  simp only [Footer.kEncodedLength]
  omega

/-- Where the index has entries of the range, the blocks under them and one more are read. -/
theorem seekRange_of_inRange (it : TableIterator) {bpre inRange rest : List (List (Entry Bytes))} (ne : inRange ≠ [])
    (small : (layoutFile crc32c (bpre ++ (inRange ++ rest)) filter).length < 2 ^ 32)
    (file : it.file = layoutFile crc32c (bpre ++ (inRange ++ rest)) filter)
    {k1 k2 : InternalKey} {ix : BlockIterator} (search : it.indexIter.seekRange k1.encode k2.encode = .ok ix)
    (h : ix.At (indexEntries 0 bpre) (indexEntries (dataBytes crc32c bpre).length inRange)
      (indexEntries ((dataBytes crc32c bpre).length + (dataBytes crc32c inRange).length) rest)) :
    ∃ it', it.seekRange k1.encode k2.encode = .ok it' ∧
      ∀ rounds, (inRange ++ rest.take 1).flatten.length ≤ rounds →
        it'.drain rounds = .ok ((rangeEntries k1.userKey k2.userKey
          (inRange ++ rest.take 1).flatten).map Entry.toBlock) := by
  have hvalid : ix.valid = true := h.valid_iff.mpr (by rwa [ne_eq, indexEntries_eq_nil])
  obtain ⟨ix', happend, hat⟩ := h.appendNext
  rw [indexEntries_take_one, ← indexEntries_append] at hat
  have hsplit : bpre ++ (inRange ++ rest) = bpre ++ ((inRange ++ rest.take 1) ++ rest.drop 1) := by
    rw [List.append_assoc inRange, List.take_append_drop]
  have henough : (inRange ++ rest.take 1).length ≤ ix'.buffer.length := by
    have hcount := length_le_blockBytes (indexEntries (dataBytes crc32c bpre).length
      (inRange ++ rest.take 1))
    rw [length_indexEntries] at hcount
    have hbuffer := congrArg List.length hat.buffer
    rw [blockBytes_append, blockBytes_append, List.length_append, List.length_append] at hbuffer
    omega
  have hsmall := small
  rw [hsplit] at hsmall
  obtain ⟨ix'', hread, hused⟩ := readContinuous_spec bpre hsmall hat (by simp [ne]) henough []
  rw [List.nil_append, ← hsplit, ← file] at hread
  have hsub : (inRange ++ rest.take 1).Sublist (bpre ++ (inRange ++ rest)) :=
    ((List.Sublist.refl _).append (List.take_sublist _ _)).trans (List.sublist_append_right _ _)
  obtain ⟨b, hb, hdrain⟩ := seek_contents ((length_blockContents_lt crc32c filter hsub).trans
    small) k1 k2
  refine ⟨⟨it.file, b, ix''⟩, ?_, fun rounds hrounds => hdrain _ _ hused rounds hrounds⟩
  rw [seekRange, search]
  simp only [Outcome.ok_bind, hvalid, if_true, happend, hread, hb]

/-- Where it has none, the first block is read. -/
theorem seekRange_of_none (it : TableIterator) {blk : List (Entry Bytes)}
    {blocks : List (List (Entry Bytes))}
    (small : (layoutFile crc32c (blk :: blocks) filter).length < 2 ^ 32)
    (file : it.file = layoutFile crc32c (blk :: blocks) filter)
    {k1 k2 : InternalKey} {ix : BlockIterator} (search : it.indexIter.seekRange k1.encode k2.encode = .ok ix)
    (buffer : ix.buffer = blockBytes (indexEntries 0 (blk :: blocks))) (invalid : ix.valid = false) :
    ∃ it', it.seekRange k1.encode k2.encode = .ok it' ∧ ∀ rounds, blk.length ≤ rounds →
        it'.drain rounds = .ok ((rangeEntries k1.userKey k2.userKey blk).map Entry.toBlock) := by
  have hindex : ix.buffer.length < 2 ^ 32 := by
    rw [length_layoutFile] at small
    rw [buffer]
    omega
  have hat : ix.seekToFirst.At [] (indexEntries 0 (blk :: blocks)) [] := by
    refine ⟨by simpa [BlockIterator.seekToFirst] using buffer, rfl, ?_, hindex⟩
    show ix.buffer.length % 2 ^ 32 = _
    rw [Nat.mod_eq_of_lt hindex, buffer]
    rfl
  have hvalid : ix.seekToFirst.valid = true := hat.valid_iff.mpr (by simp [indexEntries])
  obtain ⟨-, hvalue⟩ := BlockIterator.At.head (e := indexEntry 0 blk) hat
  obtain ⟨info, hinfo, hread⟩ := decode_indexEntry [] blocks (small.trans (by decide))
  have hsub : [blk].Sublist (blk :: blocks) := List.singleton_sublist.mpr List.mem_cons_self
  have hcontents := length_blockContents_lt crc32c filter hsub
  rw [List.flatten_singleton] at hcontents
  obtain ⟨b, hb, hdrain⟩ := seek_contents (hcontents.trans small) k1 k2
  refine ⟨⟨it.file, b, .empty⟩, ?_, fun rounds hrounds => hdrain _ _ rfl rounds hrounds⟩
  rw [List.nil_append, ← file] at hread
  rw [dataBytes_nil, List.length_nil] at hinfo
  rw [seekRange, search]
  simp only [Outcome.ok_bind, invalid, Bool.false_eq_true, if_false, hvalid, if_true, hvalue, hinfo,
    hread, hb]

/-- **`seek(K1, K2)` and the iteration that follows**, on the file of a table. -/
theorem seekRange_layoutFile {blocks : List (List (Entry Bytes))} (ne : blocks ≠ [])
    (nonempty : ∀ blk ∈ blocks, blk ≠ [])
    (small : (layoutFile crc32c blocks filter).length < 2 ^ 32) (k1 k2 : InternalKey) :
    ∃ it it', TableIterator.new (layoutFile crc32c blocks filter)
        (layoutFile crc32c blocks filter).length = .ok it ∧
      it.seekRange k1.encode k2.encode = .ok it' ∧ ∀ rounds, blocks.flatten.length ≤ rounds →
        it'.drain rounds = .ok ((rangeEntries k1.userKey k2.userKey
          (rangeBlocks k1.userKey k2.userKey blocks).flatten).map Entry.toBlock) := by
  have hindex : (blockBytes (indexEntries 0 blocks)).length < 2 ^ 32 := by
    rw [length_layoutFile] at small
    omega
  -- the seek of the index, which cuts its entries as the blocks are cut
  obtain ⟨ix, hix, hbuffer, hnil, hat⟩ := BlockIterator.seekRange_spec
    (.ofBuffer (blockBytes (indexEntries 0 blocks))) rfl hindex
    (length_of_mem_indexEntries nonempty) k1 k2
  obtain ⟨htake, hdrop⟩ := indexEntries_cut crc32c (fun u => decide (u < k1.userKey)) 0 blocks
  set bpre := blocks.takeWhile fun blk => decide (lastUserKey blk < k1.userKey)
  set cur := blocks.dropWhile fun blk => decide (lastUserKey blk < k1.userKey) with hcur
  obtain ⟨htake', hdrop'⟩ := indexEntries_cut crc32c (fun u => decide (u ≤ k2.userKey))
    (0 + (dataBytes crc32c bpre).length) cur
  set inRange := cur.takeWhile fun blk => decide (lastUserKey blk ≤ k2.userKey) with hinRange
  set rest := cur.dropWhile fun blk => decide (lastUserKey blk ≤ k2.userKey)
  rw [hdrop] at hnil hat
  rw [htake, htake', hdrop', Nat.zero_add, ne_eq, indexEntries_eq_nil] at hat
  rw [indexEntries_eq_nil] at hnil
  have hsplit : bpre ++ (inRange ++ rest) = blocks := by
    rw [List.takeWhile_append_dropWhile, List.takeWhile_append_dropWhile]
  set loaded : TableIterator :=
    ⟨layoutFile crc32c blocks filter, .empty, .ofBuffer (blockBytes (indexEntries 0 blocks))⟩
  -- no block ends inside the range: the one that the failed seek falls back to is the first
  by_cases hnone : inRange = []
  · have hinvalid : ix.valid = false := by
      by_cases hend : cur = []
      · exact hnil hend
      · rw [← Bool.not_eq_true, (hat hend).valid_iff, hnone]
        simp [indexEntries]
    have hread : rangeBlocks k1.userKey k2.userKey blocks = blocks.take 1 := if_pos hnone
    obtain ⟨blk, blocks', rfl⟩ := List.exists_cons_of_ne_nil ne
    obtain ⟨it', hit', hdrain⟩ := seekRange_of_none loaded small rfl hix hbuffer hinvalid
    refine ⟨_, it', new_layoutFile _ (small.trans (by decide)), hit', fun rounds hrounds => ?_⟩
    rw [hread]
    refine (hdrain rounds (le_trans ?_ hrounds)).trans (by simp)
    simp
  -- else the blocks of the range are read, and the one after them
  · have hend : cur ≠ [] := fun hnil => hnone (by rw [hinRange, hnil]; rfl)
    have hread : rangeBlocks k1.userKey k2.userKey blocks = inRange ++ rest.take 1 := by
      have hcut : cur = inRange ++ rest := List.takeWhile_append_dropWhile.symm
      have hlong : cur.take (inRange.length + 1) = inRange ++ rest.take 1 := by
        rw [hcut, List.take_length_add_append]
      exact (if_neg hnone).trans hlong
    have hsmall := small
    rw [← hsplit] at hsmall
    obtain ⟨it', hit', hdrain⟩ := seekRange_of_inRange loaded hnone hsmall (by rw [hsplit])
      hix (hat hend)
    refine ⟨_, it', new_layoutFile _ (small.trans (by decide)), hit', fun rounds hrounds => ?_⟩
    rw [hread]
    refine hdrain rounds (le_trans ?_ hrounds)
    rw [← hread]
    exact (rangeBlocks_sublist _ _ _).flatten.length_le

end TableIterator

/-! ## The entries of the range -/

section Range

variable {α β : Type}

/-- The index leads to all entries of the range: the last user key of some block is in the range,
or no block but the first has an entry of it. -/
def BlocksLead (k1 k2 : Bytes) (blocks : List (List (Entry β))) : Prop :=
  (∃ blk ∈ blocks, k1 ≤ lastUserKey blk ∧ lastUserKey blk ≤ k2) ∨
    ∀ blk ∈ blocks.drop 1, ∀ e ∈ blk, ¬ (k1 ≤ e.key.userKey ∧ e.key.userKey ≤ k2)

/-- The entries of a list whose user key lies in a range. -/
def inRange (k1 k2 : Bytes) (es : List (Entry β)) : List (Entry β) :=
  es.filter fun e => decide (k1 ≤ e.key.userKey ∧ e.key.userKey ≤ k2)

variable {k1 k2 : Bytes} {blocks : List (List (Entry β))}

theorem inRange_flatten_eq_nil :
    inRange k1 k2 blocks.flatten = []
      ↔ ∀ blk ∈ blocks, ∀ e ∈ blk, ¬ (k1 ≤ e.key.userKey ∧ e.key.userKey ≤ k2) := by
  simp only [inRange, List.filter_eq_nil_iff, List.mem_flatten, decide_eq_true_eq]
  exact ⟨fun h blk hblk e he => h e ⟨blk, hblk, he⟩, fun h e ⟨blk, hblk, he⟩ => h blk hblk e he⟩

theorem lastUserKey_eq_of_getLast? {blk : List (Entry β)} {e : Entry β} (last : blk.getLast? = some e) :
    lastUserKey blk = e.key.userKey := by
  rw [lastUserKey, last]
  rfl

/-- In a sorted table the last user key of a block bounds the block from above, and what follows
from below. -/
theorem lastUserKey_bounds (nonempty : ∀ blk ∈ blocks, blk ≠ [])
    (sorted : blocks.flatten.Pairwise fun a b => a.key.userKey ≤ b.key.userKey) :
    (∀ blk ∈ blocks, ∀ e ∈ blk, e.key.userKey ≤ lastUserKey blk) ∧
      blocks.Pairwise fun blk blk' => ∀ e ∈ blk', lastUserKey blk ≤ e.key.userKey := by
  obtain ⟨hblocks, hahead⟩ := List.pairwise_flatten.mp sorted
  refine ⟨fun blk hblk e he => ?_, hahead.imp_of_mem fun {blk blk'} hblk _ h e he => ?_⟩
  · rw [lastUserKey_eq_of_getLast? (List.getLast?_eq_getLast_of_ne_nil (nonempty blk hblk))]
    exact SortedCut.le_getLast (hblocks blk hblk) (nonempty blk hblk) he
  · have hlast := List.getLast?_eq_getLast_of_ne_nil (nonempty blk hblk)
    rw [lastUserKey_eq_of_getLast? hlast]
    exact h _ (List.getLast_mem _) e he

/-- **The blocks that are read hold all entries of the range exactly if the index leads to them.** -/
theorem inRange_rangeBlocks_iff (nonempty : ∀ blk ∈ blocks, blk ≠ [])
    (sorted : blocks.flatten.Pairwise fun a b => a.key.userKey ≤ b.key.userKey) :
    inRange k1 k2 (rangeBlocks k1 k2 blocks).flatten = inRange k1 k2 blocks.flatten
      ↔ BlocksLead k1 k2 blocks := by
  obtain ⟨hbound, hahead⟩ := lastUserKey_bounds nonempty sorted
  have hlasts : blocks.Pairwise fun blk blk' => lastUserKey blk ≤ lastUserKey blk' := by
    refine hahead.imp_of_mem fun {blk blk'} _ hblk' h => ?_
    obtain ⟨e, he⟩ := List.exists_mem_of_ne_nil _ (nonempty blk' hblk')
    exact (h e he).trans (hbound blk' hblk' e he)
  have hfilter := SortedCut.takeWhile_dropWhile_lt_le hlasts k1 k2
  set pre := blocks.takeWhile fun blk => decide (lastUserKey blk < k1)
  set cur := blocks.dropWhile fun blk => decide (lastUserKey blk < k1) with hcur
  set found := cur.takeWhile fun blk => decide (lastUserKey blk ≤ k2) with hfound
  set rest := cur.dropWhile fun blk => decide (lastUserKey blk ≤ k2) with hrest
  have hread : rangeBlocks k1 k2 blocks
      = if found = [] then blocks.take 1 else cur.take (found.length + 1) := rfl
  by_cases hnone : found = []
  · have hkeys : ¬ ∃ blk ∈ blocks, k1 ≤ lastUserKey blk ∧ lastUserKey blk ≤ k2 := by
      rw [hnone, eq_comm, List.filter_eq_nil_iff] at hfilter
      rintro ⟨blk, hblk, hin⟩
      exact hfilter blk hblk (by simpa using hin)
    have hall : inRange k1 k2 blocks.flatten = inRange k1 k2 (blocks.take 1).flatten
        ++ inRange k1 k2 (blocks.drop 1).flatten := by
      conv_lhs => rw [← List.take_append_drop 1 blocks]
      rw [List.flatten_append, inRange, List.filter_append]
      rfl
    rw [hread, if_pos hnone, hall, BlocksLead, or_iff_right hkeys, ← inRange_flatten_eq_nil,
      List.self_eq_append_right]
  · have hlead : BlocksLead k1 k2 blocks := by
      obtain ⟨blk, hblk⟩ := List.exists_mem_of_ne_nil _ hnone
      rw [hfilter, List.mem_filter] at hblk
      exact .inl ⟨blk, hblk.1, by simpa using hblk.2⟩
    refine iff_of_true ?_ hlead
    have hcut : cur = found ++ rest := List.takeWhile_append_dropWhile.symm
    have hlong : cur.take (found.length + 1) = found ++ rest.take 1 := by
      conv_lhs => rw [hcut]
      rw [List.take_length_add_append]
    have hsplit : blocks = pre ++ (found ++ rest.take 1) ++ rest.drop 1 := by
      rw [List.append_assoc, List.append_assoc, List.take_append_drop, ← hcut]
      exact List.takeWhile_append_dropWhile.symm
    have hlow : inRange k1 k2 pre.flatten = [] := by
      refine inRange_flatten_eq_nil.mpr fun blk hblk e he hin => ?_
      have hlt : lastUserKey blk < k1 := by simpa using List.mem_takeWhile_imp hblk
      have hle := hbound blk ((List.takeWhile_sublist _).subset hblk) e he
      exact absurd (hle.trans_lt hlt) (not_lt.mpr hin.1)
    -- The first block whose last key is above the range is read; behind it all is above.
    have hhigh : inRange k1 k2 (rest.drop 1).flatten = [] := by
      refine inRange_flatten_eq_nil.mpr fun blk hblk e he hin => ?_
      cases hcons : rest with
      | nil => simp [hcons] at hblk
      | cons first rest' =>
          have hpast : k2 < lastUserKey first := by
            have hhead := List.head?_dropWhile_not (fun blk => decide (lastUserKey blk ≤ k2)) cur
            rw [← hrest, hcons] at hhead
            simpa using hhead
          have hsub : rest.Sublist blocks := (List.dropWhile_sublist _).trans (List.dropWhile_sublist _)
          have horder := hahead.sublist hsub
          rw [hcons] at horder hblk
          have hle := (List.pairwise_cons.mp horder).1 blk hblk e he
          exact absurd (hpast.trans_le hle) (not_lt.mpr hin.2)
    have happend : ∀ a b : List (Entry β), inRange k1 k2 (a ++ b) = inRange k1 k2 a ++ inRange k1 k2 b :=
      fun a b => List.filter_append ..
    rw [hread, if_neg hnone, hlong]
    conv_rhs => rw [hsplit, List.flatten_append, List.flatten_append, happend, happend, hlow, hhigh]
    rw [List.nil_append, List.append_nil]

end Range

/-! ## The table iterator on the tables of the store -/

theorem lastUserKey_storedEntries (blk : List (Entry VLogEntryInfo)) :
    lastUserKey (storedEntries blk) = lastUserKey blk := by
  rw [lastUserKey, storedEntries, List.getLast?_map]
  cases hlast : blk.getLast? with
  | none => rw [lastUserKey, hlast]; rfl
  | some e => rw [lastUserKey, hlast]; rfl

/-- What is read does not depend on the values. -/
theorem rangeBlocks_storedEntries (k1 k2 : Bytes) (blocks : List (List (Entry VLogEntryInfo))) :
    rangeBlocks k1 k2 (blocks.map storedEntries) = (rangeBlocks k1 k2 blocks).map storedEntries := by
  simp only [rangeBlocks, List.dropWhile_map, List.takeWhile_map, Function.comp_def,
    lastUserKey_storedEntries, List.map_eq_nil_iff, List.length_map]
  split
  · rw [List.map_take]
  · rw [List.map_take]

theorem rangeEntries_storedEntries (k1 k2 : Bytes) (es : List (Entry VLogEntryInfo)) :
    rangeEntries k1 k2 (storedEntries es) = storedEntries (rangeEntries k1 k2 es) := by
  simp only [rangeEntries, storedEntries, List.dropWhile_map, List.takeWhile_map, Function.comp_def,
    Entry.map_key]
  rfl

/-- The pairs that an iterator yields for entries. -/
def storedPairs (es : List (Entry VLogEntryInfo)) : List (Bytes × Bytes) :=
  (storedEntries es).map Entry.toBlock

/-- `seek(K1, K2)` on a new iterator over the table, and `next()` until `valid()` is false, yield
the entries. -/
def Yields (crc32c : Bytes → ℕ) (es : List (Entry VLogEntryInfo)) (k1 k2 : InternalKey)
    (out : List (Entry VLogEntryInfo)) : Prop :=
  ∃ it it', TableIterator.new (tableFile crc32c (storedEntries es))
      (tableFile crc32c (storedEntries es)).length = .ok it ∧
    it.seekRange k1.encode k2.encode = .ok it' ∧
    ∀ rounds, es.length ≤ rounds → it'.drain rounds = .ok (storedPairs out)

section Index

variable {β : Type} {index : List (InternalKey × List (Entry β))}

/-- A cut of index keys and blocks at a key is a cut of the blocks at their last keys. -/
theorem map_snd_cut (keys : ∀ p ∈ index, p.1.userKey = lastUserKey p.2) (goesOn : Bytes → Bool) :
    (index.takeWhile fun p => goesOn p.1.userKey).map Prod.snd
        = (index.map Prod.snd).takeWhile (fun blk => goesOn (lastUserKey blk)) ∧
      (index.dropWhile fun p => goesOn p.1.userKey).map Prod.snd
        = (index.map Prod.snd).dropWhile fun blk => goesOn (lastUserKey blk) := by
  induction index with
  | nil => exact ⟨rfl, rfl⟩
  | cons p index ih =>
      obtain ⟨htake, hdrop⟩ := ih fun q hq => keys q (List.mem_cons_of_mem _ hq)
      have hkey := keys p List.mem_cons_self
      by_cases hgoes : goesOn (lastUserKey p.2) = true
      · simp [hkey, hgoes, htake, hdrop]
      · simp [hkey, hgoes]

theorem userKey_of_mem_indexKeys {largest : InternalKey} {blocks : List (List (Entry β))}
    (nonempty : ∀ blk ∈ blocks, blk ≠ [])
    (last : ∀ e, blocks.flatten.getLast? = some e → e.key = largest) :
    ∀ p ∈ (indexKeys largest blocks).zip blocks, p.1.userKey = lastUserKey p.2 := by
  induction blocks with
  | nil => simp [indexKeys]
  | cons blk blocks ih =>
      have hlast := List.getLast?_eq_getLast_of_ne_nil (nonempty blk List.mem_cons_self)
      cases blocks with
      | nil =>
          intro p hp
          rw [List.mem_singleton.mp hp, lastUserKey_eq_of_getLast? hlast]
          rw [last _ (by simpa using hlast)]
      | cons blk' blocks =>
          intro p hp
          rcases List.mem_cons.mp hp with rfl | hp
          · rw [lastUserKey_eq_of_getLast? hlast, hlast]
            rfl
          · refine ih (fun b hb => nonempty b (List.mem_cons_of_mem _ hb)) (fun e he => last e ?_) p hp
            rw [List.flatten_cons, List.getLast?_append, he]
            rfl

end Index

section Yields

variable {crc32c : Bytes → ℕ} {es : List (Entry VLogEntryInfo)}

/-- **What the iterator yields**: the range, of the blocks that are read. -/
theorem yields_rangeEntries (ne : es ≠ [])
    (small : (tableFile crc32c (storedEntries es)).length < 2 ^ 32) (k1 k2 : InternalKey) :
    Yields crc32c es k1 k2 (rangeEntries k1.userKey k2.userKey
      (rangeBlocks k1.userKey k2.userKey (tableBlocks es)).flatten) := by
  obtain ⟨filter, -, -, hfile⟩ := tableBlocks_layout crc32c ne
  have hblocks : (tableBlocks es).map storedEntries ≠ [] := by
    rw [ne_eq, List.map_eq_nil_iff]
    intro hnil
    have hflat := flatten_tableBlocks es
    rw [hnil] at hflat
    exact ne hflat.symm
  have hnonempty : ∀ blk ∈ (tableBlocks es).map storedEntries, blk ≠ [] := by
    intro blk hblk
    obtain ⟨blk, hmem, rfl⟩ := List.mem_map.mp hblk
    rw [storedEntries, ne_eq, List.map_eq_nil_iff]
    exact tableBlocks_nonempty es blk hmem
  have hlength : ((tableBlocks es).map storedEntries).flatten.length = es.length := by
    rw [flatten_map_storedEntries, flatten_tableBlocks, storedEntries, List.length_map]
  rw [hfile] at small
  obtain ⟨it, it', hnew, hseek, hdrain⟩ :=
    TableIterator.seekRange_layoutFile hblocks hnonempty small k1 k2
  refine ⟨it, it', by rwa [hfile], hseek, fun rounds hrounds => ?_⟩
  rw [hdrain rounds (hlength.trans_le hrounds), rangeBlocks_storedEntries,
    flatten_map_storedEntries, rangeEntries_storedEntries, storedPairs]

/-- **What a scan collects from a table is what the iterator yields of its file.** -/
theorem SSTFile.yields_range {f : SSTFile VLogEntryInfo} {sstFiles : ℕ → Bool}
    (present : sstFiles f.fileNumber = true) (ne : f.entries ≠ [])
    (last : ∀ e, f.entries.getLast? = some e → e.key = f.largest)
    (small : (tableFile crc32c (storedEntries f.entries)).length < 2 ^ 32) (k1 k2 : InternalKey) :
    Yields crc32c f.entries k1 k2 (f.range sstFiles k1.userKey k2.userKey) := by
  have hyields := yields_rangeEntries ne small k1 k2
  have hkeys : ∀ p ∈ (indexKeys f.largest (tableBlocks f.entries)).zip (tableBlocks f.entries),
      p.1.userKey = lastUserKey p.2 :=
    userKey_of_mem_indexKeys (tableBlocks_nonempty f.entries) (by rwa [flatten_tableBlocks])
  have hsnd : ((indexKeys f.largest (tableBlocks f.entries)).zip (tableBlocks f.entries)).map Prod.snd
      = tableBlocks f.entries := List.map_snd_zip (by rw [length_indexKeys])
  obtain ⟨-, hdrop⟩ := map_snd_cut hkeys fun u => decide (u < k1.userKey)
  obtain ⟨htake, -⟩ := map_snd_cut
    (fun p hp => hkeys p ((List.dropWhile_sublist fun p => decide (p.1.userKey < k1.userKey)).subset hp))
    fun u => decide (u ≤ k2.userKey)
  have hcount := congrArg List.length htake
  rw [List.length_map, hdrop, hsnd] at hcount
  rw [hsnd] at hdrop
  have hrange : f.range sstFiles k1.userKey k2.userKey = rangeEntries k1.userKey k2.userKey
      (rangeBlocks k1.userKey k2.userKey (tableBlocks f.entries)).flatten := by
    simp only [SSTFile.range, present, if_true, rangeEntries, rangeBlocks, hcount,
      List.length_eq_zero_iff, List.map_take, hdrop]
  rwa [hrange]

/-- The iterator is deterministic. -/
theorem Yields.storedPairs_eq {k1 k2 : InternalKey} {out out' : List (Entry VLogEntryInfo)}
    (h : Yields crc32c es k1 k2 out) (h' : Yields crc32c es k1 k2 out') :
    storedPairs out = storedPairs out' := by
  obtain ⟨it, it', hnew, hseek, hdrain⟩ := h
  obtain ⟨jt, jt', hnew', hseek', hdrain'⟩ := h'
  obtain rfl : it = jt := Outcome.ok.inj (hnew.symm.trans hnew')
  obtain rfl : it' = jt' := Outcome.ok.inj (hseek.symm.trans hseek')
  exact Outcome.ok.inj ((hdrain _ le_rfl).symm.trans (hdrain' _ le_rfl))

/-- A range between the last keys of two blocks leads to the first of them. -/
theorem rangeBlocks_between {β : Type} {blk blk' : List (Entry β)} {k1 k2 : Bytes}
    (low : lastUserKey blk < k1) (high : k2 < lastUserKey blk') (le : k1 ≤ k2) :
    rangeBlocks k1 k2 [blk, blk'] = [blk] := by
  simp [rangeBlocks, low, (le.trans high.le).not_gt, high.not_ge]

/-- Three entries, the first under a key that is to fill a block of its own. -/
def longFirst (u : Bytes) : List (Entry VLogEntryInfo) :=
  [⟨.ofWrite u 0 .kTypeValue, .zero⟩, ⟨.ofWrite [1] 1 .kTypeValue, .zero⟩,
    ⟨.ofWrite [2] 2 .kTypeValue, .zero⟩]

theorem tableBlocks_longFirst {u : Bytes} (long : blockSize ≤ u.length) :
    tableBlocks (longFirst u) = [(longFirst u).take 1, (longFirst u).drop 1] := by
  have hfull : blockSize ≤ entriesLength [(⟨.ofWrite u 0 .kTypeValue, .zero⟩ : Entry VLogEntryInfo)] := by
    simp only [entriesLength, List.map_cons, List.map_nil, List.sum_cons, List.sum_nil,
      InternalKey.ofWrite_userKey]
    omega
  rw [tableBlocks, longFirst, cutBlocks, List.nil_append, if_pos hfull]
  rfl

/-- The index of a table with the keys `0…0`, `1` and `2` in two blocks has the keys `0…0` and `2`.
A search for the range of `1` reads the first block, which has nothing of it. -/
theorem tableIterator_misses :
    ¬ ∀ es : List (Entry VLogEntryInfo), es ≠ [] → es.Pairwise (fun a b => a.key ≤ b.key) →
      (tableFile (fun _ => 0) (storedEntries es)).length < 2 ^ 32 →
      ∀ k1 k2 : InternalKey, k1.userKey ≤ k2.userKey →
        Yields (fun _ => 0) es k1 k2 (inRange k1.userKey k2.userKey es) := by
  intro claim
  obtain ⟨u, hu, hlow⟩ : ∃ u : Bytes, u.length = blockSize ∧ u < [1] :=
    ⟨0 :: List.replicate (blockSize - 1) 0, by rw [List.length_cons, List.length_replicate]; rfl,
      List.cons_lt_cons_iff.mpr (.inl (by decide))⟩
  have hne : longFirst u ≠ [] := List.cons_ne_nil _ _
  have hsorted : (longFirst u).Pairwise fun a b => a.key ≤ b.key := by
    simp only [longFirst, List.pairwise_cons, List.mem_cons, List.not_mem_nil, or_false,
      forall_eq_or_imp, forall_eq, List.Pairwise.nil, and_true, false_imp_iff, implies_true]
    have hlow' : u < [2] := hlow.trans (by decide)
    exact ⟨⟨(InternalKey.lt_of_userKey_lt hlow).le, (InternalKey.lt_of_userKey_lt hlow').le⟩,
      by decide⟩
  have hlength : (tableFile (fun _ => 0) (storedEntries (longFirst u))).length ≤ _ :=
    length_tableFile_le (by simp [storedEntries, longFirst])
  rw [length_blockContents_stored] at hlength
  have hsmall : (tableFile (fun _ => 0) (storedEntries (longFirst u))).length < 2 ^ 32 := by
    refine hlength.trans_lt ?_
    simp only [entriesLength, longFirst, List.map_cons, List.map_nil, List.sum_cons, List.sum_nil,
      InternalKey.ofWrite_userKey, hu, blockSize, List.length_cons, List.length_nil]
    omega
  have hyields := claim _ hne hsorted hsmall (queryKey 2 [1]) (queryKey 2 [1]) le_rfl
  have hmissed := (yields_rangeEntries hne hsmall (queryKey 2 [1]) (queryKey 2 [1])).storedPairs_eq hyields
  have hread : rangeBlocks [1] [1] (tableBlocks (longFirst u)) = [(longFirst u).take 1] := by
    have hlast : lastUserKey ((longFirst u).drop 1) = [2] := rfl
    rw [tableBlocks_longFirst hu.ge]
    exact rangeBlocks_between hlow (by rw [hlast]; decide) le_rfl
  have hnone : rangeEntries [1] [1] ((longFirst u).take 1) = [] := by
    simp [rangeEntries, longFirst, hlow]
  have hfound : ⟨.ofWrite [1] 1 .kTypeValue, .zero⟩ ∈ inRange [1] [1] (longFirst u) :=
    List.mem_filter.mpr ⟨by simp [longFirst], by decide⟩
  simp only [queryKey_userKey, hread, List.flatten_singleton, hnone] at hmissed
  have hcount := congrArg List.length hmissed
  simp only [storedPairs, storedEntries, List.length_map, List.length_nil] at hcount
  exact List.ne_nil_of_mem hfound (List.length_eq_zero_iff.mp hcount.symm)

end Yields

end Lsmkv
