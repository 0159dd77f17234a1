import Lsmkv.TableIterator

/-!
# Blocks that may hold anything

The loops over the entries of a block, on bytes that nobody has checked: `BlockIterator`
(`src/include/block_format.h`) with `seekToFirst`, `next` and both `seek`s, `FilterInIndex` and
`FindInBlock` (`src/include/reader.h`).  An entry announces the sizes of its key and its value;
`ParserBlock` reads this header without a check, adds the two in 32 bits, and compares the sum with
what is left.

Here every access is checked: a word or a slice that does not lie inside the block is
`Access.wild`, and a loop that is not done within a number of rounds is `Access.unfinished`.  A
failed assertion ends the program and is neither.  `Safe` collects what the loops should do, for
all arguments of theirs; `safe_iff` says for which contents they do it: the concatenations of whole
entries.  On these the checked loops are the ones that the store is modelled with
(`seekLoop_eq_ofOutcome`, `filterInIndex_eq_ofOutcome`, `findInBlock_eq_ofOutcome`).
-/

namespace Lsmkv

open ByteCode

/-- How code that works on given bytes ends: with a value, with a status, by a failed assertion,
with an access outside the bytes; or it is not done yet. -/
inductive Access (α : Type)
  | ok (a : α)
  | fail (c : Code)
  | aborted
  | wild
  | unfinished

namespace Access

variable {α β : Type}

instance : Monad Access where
  pure := ok
  bind
    | ok a, f => f a
    | fail c, _ => fail c
    | aborted, _ => aborted
    | wild, _ => wild
    | unfinished, _ => unfinished

@[simp] theorem ok_bind (a : α) (f : α → Access β) : (ok a >>= f) = f a := rfl

@[simp] theorem fail_bind (c : Code) (f : α → Access β) : ((fail c : Access α) >>= f) = fail c := rfl

@[simp] theorem aborted_bind (f : α → Access β) : ((aborted : Access α) >>= f) = aborted := rfl

@[simp] theorem wild_bind (f : α → Access β) : ((wild : Access α) >>= f) = wild := rfl

/-- The code ends, and has accessed nothing outside the bytes. -/
def Inside : Access α → Prop
  | ok _ | fail _ | aborted => True
  | wild | unfinished => False

/-- Code that has no access of its own; what faults in it are its assertions. -/
def ofOutcome : Outcome α → Access α
  | .ok a => ok a
  | .fail c => fail c
  | .fault => aborted

@[simp] theorem ofOutcome_ok (a : α) : ofOutcome (.ok a) = ok a := rfl

@[simp] theorem ofOutcome_fail (c : Code) : ofOutcome (.fail c : Outcome α) = fail c := rfl

@[simp] theorem ofOutcome_fault : ofOutcome (.fault : Outcome α) = aborted := rfl

theorem ofOutcome_bind (x : Outcome α) (f : α → Outcome β) :
    ofOutcome (x >>= f) = ofOutcome x >>= fun a => ofOutcome (f a) := by
  cases x <;> rfl

theorem inside_ofOutcome (x : Outcome α) : (ofOutcome x).Inside := by
  cases x <;> trivial

/-- What comes first in code that stays inside has a value, a status or a failed assertion. -/
theorem Inside.of_bind {x : Access α} {f : α → Access β} (h : (x >>= f).Inside) : x.Inside := by
  cases x with
  | wild => exact h
  | unfinished => exact h
  | _ => trivial

end Access

namespace BlockAccess

/-! ## The loops, with their accesses -/

/-- `DecodeFixed32` at a position of the block. -/
def word (b : Bytes) (pos : ℕ) : Access ℕ :=
  match fixedDecode 4 (b.drop pos) with
  | some n => .ok n
  | none => .wild

/-- A slice of the block. -/
def slice (b : Bytes) (pos n : ℕ) : Access Bytes :=
  if pos + n ≤ b.length then .ok ((b.drop pos).take n) else .wild

/-- `ParserBlock` at a position: the size of the entry there, or `none` for a status. -/
def parserBlock (b : Bytes) (pos : ℕ) : Access (Option ℕ) :=
  if b.length ≤ pos then .ok none
  else do
    let keySize ← word b pos
    let valueSize ← word b (pos + 4)
    let size := (keySize + valueSize + 8) % 2 ^ 32
    if b.length - pos < size then .ok none
    else do
      let _ ← slice b pos size
      .ok (some size)

/-- `Slice(block_entry.data() + 8, key_size)`, for the entry at a position. -/
def entryKey (b : Bytes) (pos : ℕ) : Access Bytes := do
  let keySize ← word b pos
  slice b (pos + 8) keySize

/-- What `remove_prefix(key_size + 8)` leaves of the entry at a position. -/
def entryValue (b : Bytes) (pos size : ℕ) : Access Bytes := do
  let keySize ← word b pos
  let n := (keySize + 8) % 2 ^ 32
  if n ≤ size then slice b (pos + n) (size - n) else .wild

/-- A loop of `seek` from a position. -/
def seekLoop (stops : Bytes → Outcome Bool) (b : Bytes) : ℕ → ℕ → Access SeekEnd
  | 0, pos => if b.length ≤ pos then .ok .exhausted else .unfinished
  | rounds + 1, pos =>
      if b.length ≤ pos then .ok .exhausted
      else do
        match ← parserBlock b pos with
        | none => .ok .bad
        | some size =>
            if size < 8 then .ok .bad
            else do
              let key ← entryKey b pos
              if ← .ofOutcome (stops key) then .ok (.found pos)
              else seekLoop stops b rounds (pos + size)

/-- The loop of `FilterInIndex` and `FindInBlock` from a position. -/
def scanBlock {α : Type} (decideEntry : ℕ → ℕ → Access (Option α)) (b : Bytes) : ℕ → ℕ → Access α
  | 0, pos => if b.length ≤ pos then .fail .kNotFound else .unfinished
  | rounds + 1, pos =>
      if b.length ≤ pos then .fail .kNotFound
      else do
        match ← parserBlock b pos with
        | none => .fail .kCorruption
        | some size =>
            if size < 8 then .fail .kCorruption
            else
              match ← decideEntry pos size with
              | some a => .ok a
              | none => scanBlock decideEntry b rounds (pos + size)

/-- The decision of `FilterInIndex`. -/
def filterEntry (internalKey : InternalKey) (b : Bytes) (pos size : ℕ) :
    Access (Option BlockEntryInfo) := do
  let key ← entryKey b pos
  let key ← .ofOutcome (Outcome.ofOption (InternalKey.decode key))
  if internalKey.compareImpl key ≠ .gt then do
    let value ← entryValue b pos size
    let info ← .ofOutcome (BlockEntryInfo.decode value)
    .ok (some info)
  else .ok none

/-- `FilterInIndex`. -/
def filterInIndex (rounds : ℕ) (b : Bytes) (internalKey : InternalKey) : Access BlockEntryInfo :=
  scanBlock (filterEntry internalKey b) b rounds 0

/-- The decision of `FindInBlock`. -/
def findEntry (internalKey : InternalKey) (vlogInfo : VLogEntryInfo) (b : Bytes) (pos size : ℕ) :
    Access (Option VLogEntryInfo) := do
  let key ← entryKey b pos
  let key ← .ofOutcome (Outcome.ofOption (InternalKey.decode key))
  match strCompare internalKey.userKey key.userKey with
  | .lt => .fail .kNotFound
  | .eq =>
      if key.seq ≤ internalKey.seq then do
        let value ← entryValue b pos size
        if key.type = .kTypeValue then do
          let info ← .ofOutcome (VLogEntryInfo.decode value)
          .ok (some info)
        else .ok (some vlogInfo)
      else .fail .kNotFound
  | .gt => .ok none

/-- `FindInBlock`. -/
def findInBlock (rounds : ℕ) (b : Bytes) (internalKey : InternalKey) (vlogInfo : VLogEntryInfo) :
    Access VLogEntryInfo :=
  scanBlock (findEntry internalKey vlogInfo b) b rounds 0

/-- `BlockIterator::next`. -/
def next (it : BlockIterator) : Access BlockIterator :=
  if it.valid then do
    match ← parserBlock it.buffer it.cur with
    | none => .ok it.setInValid
    | some size => .ok { it with cur := (it.cur + size) % 2 ^ 32 }
  else .aborted

/-- `BlockIterator::key`. -/
def key (it : BlockIterator) : Access Bytes := entryKey it.buffer it.cur

/-- `BlockIterator::value`. -/
def value (it : BlockIterator) : Access Bytes := do
  let keySize ← word it.buffer it.cur
  let valueSize ← word it.buffer (it.cur + 4)
  slice it.buffer (it.cur + 8 + keySize) valueSize

/-- `next()` until `valid()` is false, with `key()` and `value()` in between. -/
def walk : ℕ → BlockIterator → Access (List (Bytes × Bytes))
  | 0, it => if it.valid then .unfinished else .ok []
  | rounds + 1, it =>
      if it.valid then do
        let k ← key it
        let v ← value it
        let it ← next it
        let rest ← walk rounds it
        .ok ((k, v) :: rest)
      else .ok []

/-- `seek(target)`. -/
def seek (rounds : ℕ) (it : BlockIterator) (target : Bytes) : Access BlockIterator := do
  match ← seekLoop (reachesKey target) it.buffer rounds 0 with
  | .found pos => .ok { it with cur := pos % 2 ^ 32, stop := it.buffer.length % 2 ^ 32 }
  | .exhausted | .bad => .ok it.setInValid

/-- The second loop of `seek(K1, K2)`. -/
def seekStop (rounds : ℕ) (it : BlockIterator) (k2 : Bytes) : Access BlockIterator := do
  match ← seekLoop (passesKey k2) it.buffer rounds it.cur with
  | .bad => .ok it.setInValid
  | .found pos => .ok { it with stop := pos % 2 ^ 32 }
  | .exhausted => .ok { it with stop := it.buffer.length % 2 ^ 32 }

/-- `seek(K1, K2)`. -/
def seekRange (rounds : ℕ) (it : BlockIterator) (k1 k2 : Bytes) : Access BlockIterator := do
  match ← seekLoop (reachesKey k1) it.buffer rounds 0 with
  | .bad => .ok it.setInValid
  | .exhausted =>
      let it := { it with cur := it.buffer.length % 2 ^ 32 }
      if it.cur = it.buffer.length then .ok it.setInValid else seekStop rounds it k2
  | .found pos =>
      let it := { it with cur := pos % 2 ^ 32 }
      if it.cur = it.buffer.length then .ok it.setInValid else seekStop rounds it k2

/-- **What the loops should do on the contents of a block**: end, and touch nothing outside of it,
whatever they look for. -/
structure Safe (b : Bytes) : Prop where
  walk : ∃ rounds, (walk rounds (.ofBuffer b)).Inside
  seek : ∀ target, ∃ rounds, (seek rounds (.ofBuffer b) target).Inside
  seekRange : ∀ k1 k2, ∃ rounds, (seekRange rounds (.ofBuffer b) k1 k2).Inside
  filterInIndex : ∀ internalKey, ∃ rounds, (filterInIndex rounds b internalKey).Inside
  findInBlock : ∀ internalKey vlogInfo, ∃ rounds, (findInBlock rounds b internalKey vlogInfo).Inside

/-! ## Accesses to a whole entry -/

section Entry

variable {b rest : Bytes} {pos : ℕ} {e : Bytes × Bytes}

theorem word_key_size (at_entry : b.drop pos = entryBytes e ++ rest) (fits : EntryFits e) :
    word b pos = .ok e.1.length := by
  simp only [EntryFits] at fits
  rw [word, at_entry, fixedDecode_key_size, Nat.mod_eq_of_lt (by omega)]

theorem word_value_size (at_entry : b.drop pos = entryBytes e ++ rest) (fits : EntryFits e) :
    word b (pos + 4) = .ok e.2.length := by
  simp only [EntryFits] at fits
  rw [word, ← List.drop_drop, at_entry, fixedDecode_value_size, Nat.mod_eq_of_lt (by omega)]

theorem length_of_at_entry (at_entry : b.drop pos = entryBytes e ++ rest) :
    b.length = pos + (e.1.length + e.2.length + 8) + rest.length := by
  have hlen := congrArg List.length at_entry
  rw [List.length_drop, List.length_append, length_entryBytes] at hlen
  omega

/-- The bytes of an entry behind its header. -/
theorem drop_header (at_entry : b.drop pos = entryBytes e ++ rest) :
    b.drop (pos + 8) = e.1 ++ (e.2 ++ rest) := by
  have hbytes : entryBytes e ++ rest
      = (fixedEncode 4 e.1.length ++ fixedEncode 4 e.2.length) ++ (e.1 ++ (e.2 ++ rest)) := by
    simp [entryBytes]
  rw [← List.drop_drop, at_entry, hbytes]
  exact List.drop_left' (by simp)

theorem parserBlock_at (at_entry : b.drop pos = entryBytes e ++ rest) (fits : EntryFits e) :
    parserBlock b pos = .ok (some (entryBytes e).length) := by
  have hlen := length_of_at_entry at_entry
  have hkey := word_key_size at_entry fits
  have hvalue := word_value_size at_entry fits
  have hinside : pos + (entryBytes e).length ≤ b.length := by
    rw [length_entryBytes]
    omega
  have hsize : (e.1.length + e.2.length + 8) % 2 ^ 32 = (entryBytes e).length := by
    rw [length_entryBytes, Nat.mod_eq_of_lt fits]
  rw [parserBlock, if_neg (by omega), hkey, hvalue]
  simp only [Access.ok_bind, hsize]
  rw [if_neg (by omega), slice, if_pos hinside]
  rfl

theorem entryKey_at (at_entry : b.drop pos = entryBytes e ++ rest) (fits : EntryFits e) :
    entryKey b pos = .ok e.1 := by
  have hlen := length_of_at_entry at_entry
  rw [entryKey, word_key_size at_entry fits, Access.ok_bind, slice, if_pos (by omega),
    drop_header at_entry, List.take_left]

theorem entryValue_at (at_entry : b.drop pos = entryBytes e ++ rest) (fits : EntryFits e) :
    entryValue b pos (entryBytes e).length = .ok e.2 := by
  have hlen := length_of_at_entry at_entry
  have hkey := word_key_size at_entry fits
  have hsize := length_entryBytes e
  simp only [EntryFits] at fits
  have hn : (e.1.length + 8) % 2 ^ 32 = e.1.length + 8 := Nat.mod_eq_of_lt (by omega)
  have hrest : (entryBytes e).length - (e.1.length + 8) = e.2.length := by omega
  have hassoc : pos + (e.1.length + 8) = pos + 8 + e.1.length := by omega
  rw [entryValue, hkey, Access.ok_bind]
  simp only [hn, hrest]
  rw [if_pos (by omega), slice, if_pos (by omega), hassoc, ← List.drop_drop, drop_header at_entry,
    List.drop_left, List.take_left]

end Entry

/-! ## Whole entries -/

section Whole

variable {b : Bytes} {pos : ℕ} {es : List (Bytes × Bytes)} {ik : InternalKey}

/-- Where the rest of a block is a list of entries, what follows the first of them is the list of
the others. -/
theorem drop_blockBytes_cons {e : Bytes × Bytes} (at_entries : b.drop pos = blockBytes (e :: es)) :
    b.drop pos = entryBytes e ++ blockBytes es ∧ ¬ b.length ≤ pos ∧
      b.drop (pos + (entryBytes e).length) = blockBytes es := by
  have hfirst : b.drop pos = entryBytes e ++ blockBytes es := at_entries
  refine ⟨hfirst, fun hend => ?_, ?_⟩
  · rw [List.drop_eq_nil_of_le hend] at hfirst
    exact entryBytes_ne_nil e (List.append_eq_nil_iff.mp hfirst.symm).1
  · rw [← List.drop_drop, hfirst, List.drop_left]

theorem not_length_lt_header (e : Bytes × Bytes) : ¬ (entryBytes e).length < 8 := by
  rw [length_entryBytes]
  omega

theorem isEmpty_blockBytes_cons (e : Bytes × Bytes) (es : List (Bytes × Bytes)) :
    (blockBytes (e :: es)).isEmpty = false := by
  rw [List.isEmpty_eq_false_iff, ne_eq, blockBytes_eq_nil]
  exact List.cons_ne_nil _ _

/-- **The loops of `seek`** on whole entries are those of the store's iterator. -/
theorem seekLoop_eq_ofOutcome (stops : Bytes → Outcome Bool) (fits : ∀ e ∈ es, EntryFits e)
    (at_entries : b.drop pos = blockBytes es) {rounds : ℕ} (enough : es.length ≤ rounds) :
    seekLoop stops b rounds pos = .ofOutcome (Lsmkv.seekLoop stops rounds pos (blockBytes es)) := by
  induction es generalizing pos rounds with
  | nil =>
      have hend : b.length ≤ pos := List.drop_eq_nil_iff.mp at_entries
      cases rounds <;> simp [seekLoop, Lsmkv.seekLoop, hend]
  | cons e es ih =>
      cases rounds with
      | zero => simp at enough
      | succ rounds =>
          obtain ⟨hfirst, hmore, hnext⟩ := drop_blockBytes_cons at_entries
          have hfits := fits e List.mem_cons_self
          have ih := ih (fun d hd => fits d (List.mem_cons_of_mem _ hd)) hnext
            (Nat.le_of_succ_le_succ (by simpa using enough))
          rw [seekLoop, if_neg hmore, parserBlock_at hfirst hfits, Lsmkv.seekLoop,
            isEmpty_blockBytes_cons, blockBytes_cons, parserBlock_entryBytes hfits]
          simp only [Access.ok_bind, if_neg (not_length_lt_header e), entryKey_at hfirst hfits,
            entryKey_entryBytes hfits, Outcome.ok_bind, Bool.false_eq_true, if_false,
            Access.ofOutcome_bind]
          cases stops e.1 with
          | ok stop =>
              cases stop with
              | true => rfl
              | false => exact ih
          | fail c => rfl
          | fault => rfl

/-- A loop that stops at an entry stands at the rest of the list. -/
theorem drop_found {stops : Bytes → Outcome Bool} (fits : ∀ e ∈ es, EntryFits e)
    (at_entries : b.drop pos = blockBytes es) {rounds p : ℕ}
    (found : Lsmkv.seekLoop stops rounds pos (blockBytes es) = .ok (.found p)) :
    ∃ post, post <:+ es ∧ b.drop p = blockBytes post ∧ p < b.length := by
  induction es generalizing pos rounds with
  | nil => cases rounds <;> simp [Lsmkv.seekLoop] at found
  | cons e es ih =>
      cases rounds with
      | zero =>
          rw [Lsmkv.seekLoop, isEmpty_blockBytes_cons, if_neg Bool.false_ne_true] at found
          cases found
      | succ rounds =>
          obtain ⟨hfirst, hmore, hnext⟩ := drop_blockBytes_cons at_entries
          have hfits := fits e List.mem_cons_self
          rw [Lsmkv.seekLoop, isEmpty_blockBytes_cons, blockBytes_cons,
            parserBlock_entryBytes hfits] at found
          simp only [if_neg (not_length_lt_header e), entryKey_entryBytes hfits, Outcome.ok_bind,
            Bool.false_eq_true, if_false] at found
          obtain ⟨stop, hstop, found⟩ := Outcome.bind_eq_ok.mp found
          cases stop with
          | true =>
              obtain rfl : pos = p := SeekEnd.found.inj (Outcome.ok.inj found)
              exact ⟨e :: es, List.suffix_refl _, at_entries, not_le.mp hmore⟩
          | false =>
              obtain ⟨post, hpost, hdrop, hlt⟩ :=
                ih (fun d hd => fits d (List.mem_cons_of_mem _ hd)) hnext found
              exact ⟨post, hpost.trans (List.suffix_cons _ _), hdrop, hlt⟩

/-- The loop of the readers on whole entries, for decisions that agree there. -/
theorem scanBlock_eq_ofOutcome {α : Type} {decideEntry : ℕ → ℕ → Access (Option α)}
    {decideBytes : Bytes → Outcome (Option α)} (fits : ∀ e ∈ es, EntryFits e)
    (agree : ∀ e ∈ es, ∀ pos rest, b.drop pos = entryBytes e ++ rest →
      decideEntry pos (entryBytes e).length = .ofOutcome (decideBytes (entryBytes e)))
    (at_entries : b.drop pos = blockBytes es) {rounds : ℕ} (enough : es.length ≤ rounds) :
    scanBlock decideEntry b rounds pos
      = .ofOutcome (Lsmkv.scanBlock decideBytes (.fail .kNotFound) rounds (blockBytes es)) := by
  induction es generalizing pos rounds with
  | nil =>
      have hend : b.length ≤ pos := List.drop_eq_nil_iff.mp at_entries
      cases rounds <;> simp [scanBlock, Lsmkv.scanBlock, hend]
  | cons e es ih =>
      cases rounds with
      | zero => simp at enough
      | succ rounds =>
          obtain ⟨hfirst, hmore, hnext⟩ := drop_blockBytes_cons at_entries
          have hfits := fits e List.mem_cons_self
          have ih := ih (fun d hd => fits d (List.mem_cons_of_mem _ hd))
            (fun d hd => agree d (List.mem_cons_of_mem _ hd)) hnext
            (Nat.le_of_succ_le_succ (by simpa using enough))
          rw [scanBlock, if_neg hmore, parserBlock_at hfirst hfits, Lsmkv.scanBlock,
            isEmpty_blockBytes_cons, blockBytes_cons, parserBlock_entryBytes hfits]
          simp only [Access.ok_bind, if_neg (not_length_lt_header e), Outcome.ok_bind,
            Bool.false_eq_true, if_false, agree e List.mem_cons_self pos _ hfirst]
          cases decideBytes (entryBytes e) with
          | ok r =>
              cases r with
              | none => exact ih
              | some a => rfl
          | fail c => rfl
          | fault => rfl

theorem filterEntry_at {e : Bytes × Bytes} {rest : Bytes} (fits : EntryFits e)
    (at_entry : b.drop pos = entryBytes e ++ rest) : filterEntry ik b pos (entryBytes e).length
      = .ofOutcome (Lsmkv.filterEntry ik (entryBytes e)) := by
  rw [filterEntry, entryKey_at at_entry fits, Lsmkv.filterEntry, entryKey_entryBytes fits,
    Access.ok_bind, Outcome.ok_bind]
  cases InternalKey.decode e.1 with
  | none => rfl
  | some k =>
      simp only [Outcome.ofOption_some, Outcome.ok_bind, Access.ofOutcome_ok, Access.ok_bind,
        entryValue_at at_entry fits, entryValue_entryBytes fits]
      split
      · rw [Access.ofOutcome_bind]
        rfl
      · rfl

theorem findEntry_at {e : Bytes × Bytes} {rest : Bytes} (vlogInfo : VLogEntryInfo) (fits : EntryFits e)
    (at_entry : b.drop pos = entryBytes e ++ rest) :
    findEntry ik vlogInfo b pos (entryBytes e).length
      = .ofOutcome (Lsmkv.findEntry ik vlogInfo (entryBytes e)) := by
  rw [findEntry, entryKey_at at_entry fits, Lsmkv.findEntry, entryKey_entryBytes fits,
    Access.ok_bind, Outcome.ok_bind]
  cases InternalKey.decode e.1 with
  | none => rfl
  | some k =>
      simp only [Outcome.ofOption_some, Outcome.ok_bind, Access.ofOutcome_ok, Access.ok_bind,
        entryValue_at at_entry fits, entryValue_entryBytes fits]
      cases strCompare ik.userKey k.userKey with
      | lt => rfl
      | gt => rfl
      | eq =>
          simp only
          split
          · split
            · rw [Access.ofOutcome_bind]
              rfl
            · rfl
          · rfl

/-- **`FilterInIndex`** on whole entries is that of the store's reader. -/
theorem filterInIndex_eq_ofOutcome (ik : InternalKey) (fits : ∀ e ∈ es, EntryFits e) :
    filterInIndex (blockBytes es).length (blockBytes es) ik
      = .ofOutcome (Lsmkv.filterInIndex (blockBytes es) ik) :=
  scanBlock_eq_ofOutcome fits (fun e he _ _ at_entry => filterEntry_at (fits e he) at_entry)
    List.drop_zero (length_le_blockBytes es)

/-- **`FindInBlock`** on whole entries is that of the store's reader. -/
theorem findInBlock_eq_ofOutcome (ik : InternalKey) (vlogInfo : VLogEntryInfo)
    (fits : ∀ e ∈ es, EntryFits e) :
    findInBlock (blockBytes es).length (blockBytes es) ik vlogInfo
      = .ofOutcome (Lsmkv.findInBlock (blockBytes es) ik vlogInfo) :=
  scanBlock_eq_ofOutcome fits (fun e he _ _ at_entry => findEntry_at vlogInfo (fits e he) at_entry)
    List.drop_zero (length_le_blockBytes es)

/-- `next()` is that of the store's iterator. -/
theorem next_eq_ofOutcome {it : BlockIterator} {e : Bytes × Bytes} {pre mid post : List (Bytes × Bytes)}
    (h : it.At pre (e :: mid) post) : next it = .ofOutcome it.next := by
  have hfits := h.fits (e := e) (by simp)
  have hfirst : it.buffer.drop it.cur = entryBytes e ++ blockBytes (mid ++ post) := h.drop_cur
  have hvalid : it.valid = true := h.valid_iff.mpr (List.cons_ne_nil _ _)
  rw [next, if_pos hvalid, parserBlock_at hfirst hfits, BlockIterator.next, if_pos hvalid, hfirst,
    parserBlock_entryBytes hfits]
  rfl

/-- **The walk over whole entries** yields them. -/
theorem walk_of_at {it : BlockIterator} {pre mid post : List (Bytes × Bytes)} (h : it.At pre mid post)
    {rounds : ℕ} (enough : mid.length ≤ rounds) : walk rounds it = .ok mid := by
  induction mid generalizing it pre rounds with
  | nil =>
      have hvalid : it.valid = false := by simpa using h.valid_iff
      cases rounds <;> simp [walk, hvalid]
  | cons e mid ih =>
      cases rounds with
      | zero => simp at enough
      | succ rounds =>
          have hvalid : it.valid = true := h.valid_iff.mpr (List.cons_ne_nil _ _)
          have hfits := h.fits (e := e) (by simp)
          have hfirst : it.buffer.drop it.cur = entryBytes e ++ blockBytes (mid ++ post) := h.drop_cur
          have hlen := length_of_at_entry hfirst
          have hvalue : value it = .ok e.2 := by
            rw [value, word_key_size hfirst hfits, word_value_size hfirst hfits]
            simp only [Access.ok_bind]
            rw [slice, if_pos (by omega), ← List.drop_drop, drop_header hfirst, List.drop_left,
              List.take_left]
          obtain ⟨it', hit', hat⟩ := h.next
          rw [walk, if_pos hvalid, key, entryKey_at hfirst hfits, hvalue, next_eq_ofOutcome h, hit']
          simp only [Access.ok_bind, Access.ofOutcome_ok,
            ih hat (Nat.le_of_succ_le_succ (by simpa using enough))]

end Whole

/-! ## What the walk needs -/

section Walk

variable {b : Bytes} {pos : ℕ} {it : BlockIterator}

theorem word_inside (h : (word b pos).Inside) : ∃ n, word b pos = .ok n ∧ fixedDecode 4 (b.drop pos) = some n := by
  unfold word at h ⊢
  cases hdecode : fixedDecode 4 (b.drop pos) with
  | none => rw [hdecode] at h; exact absurd h id
  | some n => exact ⟨n, rfl, rfl⟩

theorem slice_inside {n : ℕ} (h : (slice b pos n).Inside) :
    slice b pos n = .ok ((b.drop pos).take n) ∧ pos + n ≤ b.length := by
  unfold slice at h ⊢
  split at h
  case isTrue hle => exact ⟨if_pos hle, hle⟩
  case isFalse => exact absurd h id

/-- A walk that takes a step has a whole entry at its position. -/
theorem exists_entry_of_walk {rounds : ℕ} (small : it.buffer.length < 2 ^ 32) (valid : it.valid = true)
    (inside : (walk (rounds + 1) it).Inside) :
    ∃ e rest, it.buffer.drop it.cur = entryBytes e ++ rest ∧ EntryFits e ∧
      (walk rounds { it with cur := it.cur + (entryBytes e).length }).Inside := by
  rw [walk, if_pos valid] at inside
  -- `key()` reads the size of the key, and the key.
  have hkey := inside.of_bind
  unfold key entryKey at hkey
  obtain ⟨k, hk, hkeySize⟩ := word_inside hkey.of_bind
  rw [hk, Access.ok_bind] at hkey
  obtain ⟨hkeySlice, hkeyLe⟩ := slice_inside hkey
  have hkeyEq : key it = .ok ((it.buffer.drop (it.cur + 8)).take k) := by
    rw [key, entryKey, hk, Access.ok_bind, hkeySlice]
  rw [hkeyEq, Access.ok_bind] at inside
  -- `value()` reads the size of the value, and the value behind the key.
  have hvalue := inside.of_bind
  unfold value at hvalue
  rw [hk, Access.ok_bind] at hvalue
  obtain ⟨v, hv, hvalueSize⟩ := word_inside hvalue.of_bind
  rw [hv, Access.ok_bind] at hvalue
  obtain ⟨hvalueSlice, hvalueLe⟩ := slice_inside hvalue
  have hvalueEq : value it = .ok ((it.buffer.drop (it.cur + 8 + k)).take v) := by
    rw [value, hk, Access.ok_bind, hv, Access.ok_bind, hvalueSlice]
  rw [hvalueEq, Access.ok_bind] at inside
  let e : Bytes × Bytes := ((it.buffer.drop (it.cur + 8)).take k, (it.buffer.drop (it.cur + 8 + k)).take v)
  have hlen₁ : e.1.length = k := by
    simp only [e, List.length_take, List.length_drop]
    omega
  have hlen₂ : e.2.length = v := by
    simp only [e, List.length_take, List.length_drop]
    omega
  have hbytes : entryBytes e = (it.buffer.drop it.cur).take (k + v + 8) := by
    have hheader : fixedEncode 4 k ++ fixedEncode 4 v = (it.buffer.drop it.cur).take 8 := by
      rw [fixedEncode_of_fixedDecode hkeySize, fixedEncode_of_fixedDecode hvalueSize,
        ← List.drop_drop, ← List.take_add]
    rw [entryBytes, hlen₁, hlen₂, hheader, show k + v + 8 = 8 + (k + v) by omega, List.take_add,
      List.take_add, List.drop_drop, List.drop_drop, List.append_assoc]
  have hsize : (entryBytes e).length = k + v + 8 := by rw [length_entryBytes, hlen₁, hlen₂]
  have hfits : EntryFits e := by
    simp only [EntryFits, hlen₁, hlen₂]
    omega
  have hfirst : it.buffer.drop it.cur
      = entryBytes e ++ (it.buffer.drop it.cur).drop (k + v + 8) := by
    rw [hbytes, List.take_append_drop]
  have hnext : next it = .ok { it with cur := it.cur + (entryBytes e).length } := by
    rw [next, if_pos valid, parserBlock_at hfirst hfits]
    simp only [Access.ok_bind]
    rw [Nat.mod_eq_of_lt (by omega)]
  rw [hnext, Access.ok_bind] at inside
  exact ⟨e, _, hfirst, hfits, inside.of_bind⟩

/-- **A walk that stays inside goes over whole entries**, from where it starts to the end. -/
theorem exists_entries_of_walk (it : BlockIterator) {rounds : ℕ} (small : it.buffer.length < 2 ^ 32)
    (stop : it.stop = it.buffer.length) (cur : it.cur ≤ it.buffer.length)
    (inside : (walk rounds it).Inside) : ∃ es, it.buffer.drop it.cur = blockBytes es := by
  induction rounds generalizing it with
  | zero =>
      rw [walk] at inside
      split at inside
      · exact absurd inside id
      · rename_i hvalid
        simp only [BlockIterator.valid, decide_eq_true_eq, stop] at hvalid
        exact ⟨[], List.drop_eq_nil_of_le (not_lt.mp hvalid)⟩
  | succ rounds ih =>
      by_cases hvalid : it.valid = true
      · obtain ⟨e, rest, hfirst, hfits, hrest⟩ := exists_entry_of_walk small hvalid inside
        have hlen := congrArg List.length hfirst
        rw [List.length_drop, List.length_append] at hlen
        have hle : it.cur + (entryBytes e).length ≤ it.buffer.length := by
          have hpos := length_entryBytes e
          omega
        obtain ⟨es, hes⟩ := ih { it with cur := it.cur + (entryBytes e).length } small stop hle hrest
        refine ⟨e :: es, ?_⟩
        rw [blockBytes_cons, ← hes, hfirst]
        congr 1
        show rest = it.buffer.drop (it.cur + (entryBytes e).length)
        rw [← List.drop_drop, hfirst, List.drop_left]
      · simp only [BlockIterator.valid, decide_eq_true_eq, stop] at hvalid
        exact ⟨[], List.drop_eq_nil_of_le (not_lt.mp hvalid)⟩

end Walk

/-! ## The contents on which the loops are safe -/

section Safe

variable {b : Bytes} {es : List (Bytes × Bytes)}

theorem seekStop_inside {it : BlockIterator} (k2 : Bytes) (fits : ∀ e ∈ es, EntryFits e)
    (at_entries : it.buffer.drop it.cur = blockBytes es) {rounds : ℕ} (enough : es.length ≤ rounds) :
    (seekStop rounds it k2).Inside := by
  rw [seekStop, seekLoop_eq_ofOutcome (passesKey k2) fits at_entries enough]
  cases Lsmkv.seekLoop (passesKey k2) rounds it.cur (blockBytes es) with
  | ok r => cases r <;> trivial
  | fail c => trivial
  | fault => trivial

theorem seekRange_inside (fits : ∀ e ∈ es, EntryFits e) (small : (blockBytes es).length < 2 ^ 32)
    (k1 k2 : Bytes) :
    (seekRange (blockBytes es).length (.ofBuffer (blockBytes es)) k1 k2).Inside := by
  have hloop := seekLoop_eq_ofOutcome (reachesKey k1) fits (b := blockBytes es) List.drop_zero
    (length_le_blockBytes es)
  have hbuffer : (BlockIterator.ofBuffer (blockBytes es)).buffer = blockBytes es := rfl
  rw [seekRange, hbuffer, hloop]
  cases hfound : Lsmkv.seekLoop (reachesKey k1) (blockBytes es).length 0 (blockBytes es) with
  | fail c => trivial
  | fault => trivial
  | ok r =>
      cases r with
      | bad => trivial
      | exhausted =>
          simp only [Access.ofOutcome_ok, Access.ok_bind, Nat.mod_eq_of_lt small, if_true]
          trivial
      | found p =>
          obtain ⟨post, hpost, hdrop, hlt⟩ := drop_found fits (b := blockBytes es) List.drop_zero hfound
          have hp : p % 2 ^ 32 = p := Nat.mod_eq_of_lt (hlt.trans small)
          simp only [Access.ofOutcome_ok, Access.ok_bind, hp, if_neg hlt.ne]
          exact seekStop_inside k2 (fun e he => fits e (hpost.subset he)) hdrop
            (hpost.length_le.trans (length_le_blockBytes es))

/-- Whole entries are safe. -/
theorem safe_blockBytes (small : (blockBytes es).length < 2 ^ 32) : Safe (blockBytes es) := by
  have hfits : ∀ e ∈ es, EntryFits e := fun e he => fits_of_mem_blockBytes he small
  have hat : (BlockIterator.ofBuffer (blockBytes es)).At [] es [] :=
    ⟨by simp [BlockIterator.ofBuffer, BlockIterator.seekToFirst], rfl, Nat.mod_eq_of_lt small, small⟩
  refine ⟨⟨es.length, ?_⟩, fun target => ⟨(blockBytes es).length, ?_⟩,
    fun k1 k2 => ⟨_, seekRange_inside hfits small k1 k2⟩, fun ik => ⟨(blockBytes es).length, ?_⟩,
    fun ik info => ⟨(blockBytes es).length, ?_⟩⟩
  · rw [walk_of_at hat le_rfl]
    trivial
  · have hloop := seekLoop_eq_ofOutcome (reachesKey target) hfits (b := blockBytes es) List.drop_zero
      (length_le_blockBytes es)
    rw [BlockAccess.seek, show (BlockIterator.ofBuffer (blockBytes es)).buffer = blockBytes es from rfl,
      hloop]
    cases Lsmkv.seekLoop (reachesKey target) (blockBytes es).length 0 (blockBytes es) with
    | ok r => cases r <;> trivial
    | fail c => trivial
    | fault => trivial
  · rw [filterInIndex_eq_ofOutcome ik hfits]
    exact Access.inside_ofOutcome _
  · rw [findInBlock_eq_ofOutcome ik info hfits]
    exact Access.inside_ofOutcome _

/-- A safe block is made of whole entries. -/
theorem Safe.entries (h : Safe b) (small : b.length < 2 ^ 32) : ∃ es, b = blockBytes es := by
  obtain ⟨rounds, inside⟩ := h.walk
  have hstop : (BlockIterator.ofBuffer b).stop = (BlockIterator.ofBuffer b).buffer.length :=
    Nat.mod_eq_of_lt small
  obtain ⟨es, hes⟩ := exists_entries_of_walk (.ofBuffer b) small hstop (Nat.zero_le _) inside
  exact ⟨es, hes⟩

/-- **The loops are safe exactly on the concatenations of whole entries.**  A tail that is shorter
than a header, an entry that ends behind the block, and sizes whose sum does not fit 32 bits each
lead outside, or nowhere. -/
theorem safe_iff (small : b.length < 2 ^ 32) : Safe b ↔ ∃ es, b = blockBytes es := by
  constructor
  · exact fun h => h.entries small
  · rintro ⟨es, rfl⟩
    exact safe_blockBytes small

/-- A block with two versions of a key, an empty value, and another key. -/
theorem safe_iff_three : Safe (blockBytes [([1, 0, 5, 0, 0, 0, 0, 0, 0], [7]),
    ([1, 0, 3, 0, 0, 0, 0, 0, 0], []), ([2, 0, 4, 0, 0, 0, 0, 0, 0], [8, 9])]) :=
  (safe_iff (by decide)).mpr ⟨_, rfl⟩

/-- Three bytes are shorter than a header. -/
theorem not_safe_short : ¬ ∀ b : Bytes, Safe b := by
  intro claim
  obtain ⟨es, hes⟩ := (claim [0, 0, 0]).entries (by decide)
  cases es with
  | nil => cases hes
  | cons e es =>
      have hlen := congrArg List.length hes
      rw [blockBytes_cons, List.length_append, length_entryBytes, List.length_cons, List.length_cons,
        List.length_cons, List.length_nil] at hlen
      omega

/-- **Sizes that add up to nothing**: where key size, value size and header are `2 ^ 32` in all,
`next()` stays where it is. -/
theorem next_eq_self {it : BlockIterator} {k v : ℕ} (valid : it.valid = true)
    (inside : it.cur < it.buffer.length) (cur : it.cur < 2 ^ 32) (key : word it.buffer it.cur = .ok k)
    (value : word it.buffer (it.cur + 4) = .ok v) (sum : (k + v + 8) % 2 ^ 32 = 0) :
    next it = .ok it := by
  have hslice : slice it.buffer it.cur 0 = .ok [] := by
    rw [slice, if_pos (by omega), List.take_zero]
  rw [next, if_pos valid, parserBlock, if_neg (by omega), key, value]
  simp only [Access.ok_bind, sum, Nat.not_lt_zero, if_false, hslice, Nat.add_zero,
    Nat.mod_eq_of_lt cur]

end Safe

end BlockAccess

end Lsmkv
