import Lsmkv.FilterBits
import Lsmkv.TableIterator

/-!
# Walking over a whole table

A compaction reads its inputs with `TableIterator::seekToFirst` and `next` until `valid()` is false
(`src/include/block_format.h`).  The iterator is two iterators of blocks, one in the index and one
in a data block, and the one in the index is a block ahead: `NextBlock` reads the block of its entry
and moves on.  `valid()` is the disjunction of the two, whereas `key()` and `value()` assert that
the one in the data block is valid; so between two calls it must never be the index alone that has
something left.

`TableIterator.At` says where the iterator stands: the entries that are left of the block, and the
blocks that the index still lists.  `next` keeps it (`TableIterator.At.next`), and what is left in
all loses exactly its first entry.  With the layout of a table, for any calls of its builder
(`BuilderCall.file_layout`), the iterator yields the entries that were added, in order
(`tableIterator_yields_added`).
-/

namespace Lsmkv

open ByteCode Files

/-! ## The tables of a builder -/

namespace BuilderCall

/-- The calls that make a table: `Add` and `Flush()`. -/
def Plain : BuilderCall → Prop
  | add _ _ => True
  | flush nextIndexEntry => nextIndexEntry = true
  | addInfo _ _ | setLastKey _ => False

/-- The entry that a call adds. -/
def entries : BuilderCall → List (Entry Bytes)
  | add key value | addInfo key value => [⟨key, value⟩]
  | flush _ | setLastKey _ => []

/-- The blocks that calls end up in, behind an open block: it is closed by a call of `Flush`, by
an entry that fills it, and by `Finish`. -/
def blocks (cur : List (Entry Bytes)) : List BuilderCall → List (List (Entry Bytes))
  | [] => if cur.isEmpty then [] else [cur]
  | add key value :: calls | addInfo key value :: calls =>
      if blockSize ≤ (blockContents (cur ++ [⟨key, value⟩])).length then
        (cur ++ [⟨key, value⟩]) :: blocks [] calls
      else blocks (cur ++ [⟨key, value⟩]) calls
  | flush _ :: calls => (if cur.isEmpty then [] else [cur]) ++ blocks [] calls
  | setLastKey _ :: calls => blocks cur calls

/-- The file of a table: calls on a new builder, and `Finish`. -/
def file (crc32c : Bytes → ℕ) (calls : List BuilderCall) : Bytes := (run crc32c calls).finish crc32c

variable {crc32c : Bytes → ℕ} {calls : List BuilderCall}

/-- The tables of the store are among these files. -/
theorem file_add (crc32c : Bytes → ℕ) (es : List (Entry Bytes)) :
    file crc32c (es.map fun e => .add e.key e.value) = tableFile crc32c es := by
  rw [tableFile_eq_finish, file, run, List.foldl_map]
  rfl

/-- The blocks hold the entries, in order. -/
theorem flatten_blocks (cur : List (Entry Bytes)) (calls : List BuilderCall) :
    (blocks cur calls).flatten = cur ++ calls.flatMap entries := by
  induction calls generalizing cur with
  | nil => rw [blocks]; split <;> simp_all
  | cons c calls ih =>
      cases c with
      | add key value => rw [blocks]; split <;> simp [ih, entries]
      | addInfo key value => rw [blocks]; split <;> simp [ih, entries]
      | flush b => rw [blocks, List.flatten_append, ih]; split <;> simp_all [entries]
      | setLastKey key => rw [blocks, ih]; simp [entries]

theorem nonempty_of_mem_blocks {cur blk : List (Entry Bytes)} {calls : List BuilderCall}
    (mem : blk ∈ blocks cur calls) : blk ≠ [] := by
  induction calls generalizing cur with
  | nil => rw [blocks] at mem; split at mem <;> simp_all
  | cons c calls ih =>
      cases c with
      | add key value =>
          rw [blocks] at mem
          split at mem
          · rcases List.mem_cons.mp mem with rfl | mem
            · simp
            · exact ih mem
          · exact ih mem
      | addInfo key value =>
          rw [blocks] at mem
          split at mem
          · rcases List.mem_cons.mp mem with rfl | mem
            · simp
            · exact ih mem
          · exact ih mem
      | flush b =>
          rw [blocks] at mem
          rcases List.mem_append.mp mem with mem | mem
          · split at mem <;> simp_all
          · exact ih mem
      | setLastKey key => exact ih mem

theorem builds_foldl {b : TableBuilder} {bs : List (List (Entry Bytes))} {cur : List (Entry Bytes)}
    (h : b.Builds crc32c bs cur) (plain : ∀ c ∈ calls, c.Plain) :
    ∃ bs' cur', (calls.foldl (apply crc32c) b).Builds crc32c bs' cur' ∧
      bs' ++ (if cur'.isEmpty then [] else [cur']) = bs ++ blocks cur calls := by
  induction calls generalizing b bs cur with
  | nil => exact ⟨bs, cur, h, rfl⟩
  | cons c calls ih =>
      have hplain := fun d hd => plain d (List.mem_cons_of_mem _ hd)
      cases c with
      | add key value =>
          have hadd := h.add ⟨key, value⟩
          rw [blocks]
          split at hadd
          case isTrue hfull =>
            obtain ⟨bs', cur', hb, heq⟩ := ih hadd hplain
            exact ⟨bs', cur', hb, by rw [heq, if_pos hfull, List.append_assoc]; rfl⟩
          case isFalse hfull =>
            obtain ⟨bs', cur', hb, heq⟩ := ih hadd hplain
            exact ⟨bs', cur', hb, by rw [heq, if_neg hfull]⟩
      | flush next =>
          obtain rfl : next = true := plain _ List.mem_cons_self
          obtain ⟨bs', cur', hb, heq⟩ := ih h.flush hplain
          exact ⟨bs', cur', hb, by rw [heq, blocks, List.append_assoc]⟩
      | addInfo key value => exact absurd (plain _ List.mem_cons_self) id
      | setLastKey key => exact absurd (plain _ List.mem_cons_self) id

/-- **The layout of a table**, for any calls of `Add` and `Flush`. -/
theorem file_layout (crc32c : Bytes → ℕ) (plain : ∀ c ∈ calls, c.Plain) (ne : calls.flatMap entries ≠ []) :
    ∃ filter, filter.length = bloomSize ∧
      file crc32c calls = layoutFile crc32c (blocks [] calls) filter := by
  obtain ⟨bs, cur, hbuilds, heq⟩ := builds_foldl (TableBuilder.builds_new crc32c) plain
  have hflat : bs.flatten ++ cur = calls.flatMap entries := by
    have hcongr := congrArg List.flatten heq
    rw [List.nil_append, flatten_blocks, List.nil_append] at hcongr
    rw [← hcongr]
    by_cases hcur : cur = []
    · simp [hcur]
    · simp [hcur]
  obtain ⟨filter, hlength, -, hfile⟩ := hbuilds.finish_open (by rwa [hflat])
  rw [heq, List.nil_append] at hfile
  exact ⟨filter, hlength, hfile⟩

/-- The size of a table is bounded by the size of its entries. -/
theorem length_file_le (plain : ∀ c ∈ calls, c.Plain) (ne : calls.flatMap entries ≠ []) :
    (file crc32c calls).length ≤ 4 * (blockContents (calls.flatMap entries)).length + 8256 := by
  obtain ⟨filter, hlength, hfile⟩ := file_layout crc32c plain ne
  have hnonempty : ∀ blk ∈ blocks [] calls, blk ≠ [] := fun blk => nonempty_of_mem_blocks
  have hbound := length_data_index_le crc32c hnonempty 0
  rw [flatten_blocks, List.nil_append] at hbound
  rw [hfile, length_layoutFile, hlength]
  simp only [bloomSize, kBlockTrailerSize, Footer.kEncodedLength]
  omega

end BuilderCall

/-! ## Where a table iterator stands -/

namespace TableIterator

variable {crc32c : Bytes → ℕ} {filter : Bytes} {it : TableIterator} {e : Bytes × Bytes}
  {bpre rest : List (List (Entry Bytes))} {blk : List (Entry Bytes)} {mid : List (Bytes × Bytes)}

/-- The blocks of a table fit the positions of the block iterators, and its file the handles. -/
structure Fits (crc32c : Bytes → ℕ) (blocks : List (List (Entry Bytes))) (filter : Bytes) : Prop where
  file : (layoutFile crc32c blocks filter).length < 2 ^ 64
  data : ∀ blk ∈ blocks, (blockContents blk).length < 2 ^ 32
  index : (blockBytes (indexEntries 0 blocks)).length < 2 ^ 32

/-- The iterator has the entries `mid` left of its block, and the blocks `rest` behind them. -/
structure At (crc32c : Bytes → ℕ) (filter : Bytes) (it : TableIterator)
    (bpre : List (List (Entry Bytes))) (mid : List (Bytes × Bytes)) (rest : List (List (Entry Bytes))) :
    Prop where
  file : it.file = layoutFile crc32c (bpre ++ rest) filter
  fits : Fits crc32c (bpre ++ rest) filter
  nonempty : ∀ blk ∈ bpre ++ rest, blk ≠ []
  block : ∃ pre, it.blockIter.At pre mid []
  index : ∃ pre, it.indexIter.At pre (indexEntries (dataBytes crc32c bpre).length rest) []

/-- What the iterator has left to yield. -/
def left (mid : List (Bytes × Bytes)) (rest : List (List (Entry Bytes))) : List (Bytes × Bytes) :=
  mid ++ rest.flatten.map Entry.toBlock

theorem At.block_valid_iff (h : it.At crc32c filter bpre mid rest) :
    it.blockIter.valid = true ↔ mid ≠ [] := by
  obtain ⟨pre, hat⟩ := h.block
  exact hat.valid_iff

theorem At.index_valid_iff (h : it.At crc32c filter bpre mid rest) :
    it.indexIter.valid = true ↔ rest ≠ [] := by
  obtain ⟨pre, hat⟩ := h.index
  rw [hat.valid_iff, ne_eq, indexEntries_eq_nil]

/-- An iterator on new bytes stands before all of their entries. -/
theorem at_ofBuffer {es : List (Bytes × Bytes)} (small : (blockBytes es).length < 2 ^ 32) :
    (BlockIterator.ofBuffer (blockBytes es)).At [] es [] :=
  ⟨by simp [BlockIterator.ofBuffer, BlockIterator.seekToFirst], rfl, Nat.mod_eq_of_lt small, small⟩

/-- `NextBlock` reads the first block that the index still lists, and leaves the index. -/
theorem At.nextBlock (h : it.At crc32c filter bpre mid (blk :: rest)) (b : BlockIterator) :
    nextBlock { it with blockIter := b } = .ok { it with blockIter := .ofBuffer (blockContents blk) } := by
  obtain ⟨pre, hindex⟩ := h.index
  rw [indexEntries] at hindex
  obtain ⟨-, hvalue⟩ := hindex.head
  obtain ⟨info, hinfo, hread⟩ := decode_indexEntry bpre rest h.fits.file
  rw [TableIterator.nextBlock, if_pos (h.index_valid_iff.mpr (List.cons_ne_nil _ _))]
  show (it.indexIter.value >>= _) = _
  rw [hvalue, Outcome.ok_bind, hinfo]
  show Outcome.ok { it with blockIter := BlockIterator.ofBuffer (readInto it.file info.offset info.size) } = _
  rw [h.file, hread]

/-- **`NextBlock` and `next` of the index** take over the first block that the index still lists,
whatever is left of the block before. -/
theorem At.load (h : it.At crc32c filter bpre mid (blk :: rest)) (b : BlockIterator) :
    ∃ it₁ indexIter, TableIterator.nextBlock { it with blockIter := b } = .ok it₁ ∧
      it₁.indexIter.valid = true ∧ it₁.indexIter.next = .ok indexIter ∧
      At crc32c filter { it₁ with indexIter := indexIter } (bpre ++ [blk]) (blk.map Entry.toBlock) rest := by
  obtain ⟨pre, hindex⟩ := h.index
  rw [indexEntries] at hindex
  obtain ⟨ix, hix, hat⟩ := hindex.next
  have hassoc : bpre ++ [blk] ++ rest = bpre ++ blk :: rest := by simp
  have hoffset : (dataBytes crc32c (bpre ++ [blk])).length = (dataBytes crc32c bpre).length
      + ((blockContents blk).length + kBlockTrailerSize) := by
    simp [TableBuilder.length_rawBlock]
  refine ⟨_, ix, h.nextBlock b, h.index_valid_iff.mpr (List.cons_ne_nil _ _), hix, ?_⟩
  refine ⟨by rw [hassoc]; exact h.file, by rw [hassoc]; exact h.fits,
    by rw [hassoc]; exact h.nonempty, ⟨[], at_ofBuffer ?_⟩, ?_⟩
  · exact h.fits.data blk (by simp)
  · rw [hoffset]
    exact ⟨_, hat⟩

/-- **`next()`** goes over one entry.  Where it leaves the block, it reads the block that the index
lists next; where there is none, both iterators are used up. -/
theorem At.next (h : it.At crc32c filter bpre (e :: mid) rest) :
    ∃ it' bpre' mid' rest', it.next = .ok it' ∧ it'.At crc32c filter bpre' mid' rest' ∧
      left mid' rest' = left mid rest ∧ (mid' ≠ [] ∨ rest' = []) := by
  obtain ⟨pre, hblock⟩ := h.block
  obtain ⟨b, hb, hat⟩ := hblock.next
  have hvalid : it.blockIter.valid = true := hblock.valid_iff.mpr (List.cons_ne_nil _ _)
  have hboth : it.valid = true := by rw [valid, hvalid, Bool.or_true]
  have hmoved : At crc32c filter { it with blockIter := b } bpre mid rest :=
    ⟨h.file, h.fits, h.nonempty, ⟨_, hat⟩, h.index⟩
  by_cases hstay : b.valid || !it.indexIter.valid
  · refine ⟨{ it with blockIter := b }, bpre, mid, rest, ?_, hmoved, rfl, ?_⟩
    · rw [TableIterator.next, if_pos hboth, if_pos hvalid, hb, Outcome.ok_bind]
      exact if_pos hstay
    · rcases Bool.or_eq_true_iff.mp hstay with hb' | hused
      · exact .inl (hmoved.block_valid_iff.mp hb')
      · refine .inr (not_not.mp fun hne => ?_)
        rw [h.index_valid_iff.mpr hne] at hused
        exact absurd hused (by decide)
  · obtain ⟨hb', hindex⟩ : b.valid = false ∧ it.indexIter.valid = true := by simpa using hstay
    obtain rfl : mid = [] := by
      by_contra hne
      rw [hmoved.block_valid_iff.mpr hne] at hb'
      exact absurd hb' (by decide)
    obtain ⟨blk, rest, rfl⟩ := List.exists_cons_of_ne_nil (h.index_valid_iff.mp hindex)
    obtain ⟨it₁, ix, hload, hvalid₁, hix, hat₁⟩ := h.load .empty
    refine ⟨_, _, _, _, ?_, hat₁, ?_, .inl ?_⟩
    · rw [TableIterator.next, if_pos hboth, if_pos hvalid, hb, Outcome.ok_bind]
      refine (if_neg hstay).trans ?_
      show (TableIterator.nextBlock { it with blockIter := .empty } >>= _) = _
      rw [hload, Outcome.ok_bind, if_pos hvalid₁, hix]
      rfl
    · simp [left]
    · rw [ne_eq, List.map_eq_nil_iff]
      exact h.nonempty blk (by simp)

/-- **The rest of an iteration**: what is left, in order.  Never is only the index valid. -/
theorem At.drain (h : it.At crc32c filter bpre mid rest) (leads : mid ≠ [] ∨ rest = []) {rounds : ℕ}
    (enough : (left mid rest).length ≤ rounds) : it.drain rounds = .ok (left mid rest) := by
  induction rounds generalizing it bpre mid rest with
  | zero =>
      have hnil : left mid rest = [] := List.length_eq_zero_iff.mp (Nat.le_zero.mp enough)
      obtain rfl : mid = [] := (List.append_eq_nil_iff.mp hnil).1
      obtain rfl : rest = [] := leads.resolve_left (by simp)
      refine drain_of_invalid ?_ ?_ 0
      · simpa using h.index_valid_iff
      · simpa using h.block_valid_iff
  | succ rounds ih =>
      cases mid with
      | nil =>
          obtain rfl : rest = [] := leads.resolve_left (by simp)
          refine drain_of_invalid ?_ ?_ _
          · simpa using h.index_valid_iff
          · simpa using h.block_valid_iff
      | cons e mid =>
          obtain ⟨pre, hblock⟩ := h.block
          obtain ⟨hkey, hvalue⟩ := hblock.head
          obtain ⟨it', bpre', mid', rest', hnext, hat, hleft, hleads⟩ := h.next
          have hvalid : it.blockIter.valid = true := hblock.valid_iff.mpr (List.cons_ne_nil _ _)
          have hboth : it.valid = true := by rw [valid, hvalid, Bool.or_true]
          have henough : (left mid' rest').length ≤ rounds := by
            rw [hleft]
            exact Nat.le_of_succ_le_succ (by simpa [left] using enough)
          rw [TableIterator.drain, if_pos hboth, if_pos hvalid, hkey, hvalue, hnext]
          simp only [Outcome.ok_bind]
          rw [ih hat hleads henough, hleft]
          rfl

/-- `seekToFirst` stands before all entries. -/
theorem seekToFirst_layoutFile {blocks : List (List (Entry Bytes))} (ne : blocks ≠ [])
    (nonempty : ∀ blk ∈ blocks, blk ≠ []) (fits : Fits crc32c blocks filter) :
    ∃ it it' bpre mid rest, TableIterator.new (layoutFile crc32c blocks filter)
        (layoutFile crc32c blocks filter).length = .ok it ∧
      it.seekToFirst = .ok it' ∧ it'.At crc32c filter bpre mid rest ∧ mid ≠ [] ∧
      left mid rest = blocks.flatten.map Entry.toBlock := by
  obtain ⟨blk, rest, rfl⟩ := List.exists_cons_of_ne_nil ne
  have hindex := at_ofBuffer fits.index
  have hat : At crc32c filter ⟨layoutFile crc32c (blk :: rest) filter, .empty,
      (BlockIterator.ofBuffer (blockBytes (indexEntries 0 (blk :: rest)))).seekToFirst⟩ [] []
      (blk :: rest) :=
    ⟨rfl, fits, nonempty, ⟨[], rfl, rfl, rfl, Nat.two_pow_pos 32⟩, [], hindex⟩
  obtain ⟨it₁, ix, hload, hvalid₁, hix, hat₁⟩ := hat.load .empty
  refine ⟨_, _, _, _, _, new_layoutFile _ fits.file, ?_, hat₁, ?_, ?_⟩
  · have hvalid := hat.index_valid_iff.mpr (List.cons_ne_nil _ _)
    rw [seekToFirst]
    refine (if_pos hvalid).trans ?_
    show (nextBlock _ >>= _) = _
    rw [hload, Outcome.ok_bind, if_pos hvalid₁, hix]
    rfl
  · rw [ne_eq, List.map_eq_nil_iff]
    exact nonempty blk List.mem_cons_self
  · simp [left]

/-- The constructor on a table without entries: there is no index. -/
theorem new_of_empty {calls : List BuilderCall} (plain : ∀ c ∈ calls, c.Plain)
    (empty : calls.flatMap BuilderCall.entries = [])
    (small : (BuilderCall.file crc32c calls).length < 2 ^ 64) :
    TableIterator.new (BuilderCall.file crc32c calls) (BuilderCall.file crc32c calls).length
      = .ok ⟨BuilderCall.file crc32c calls, .empty, .ofBuffer (blockBytes (indexEntries 0 []))⟩ := by
  obtain ⟨bs, cur, hbuilds, heq⟩ := BuilderCall.builds_foldl (TableBuilder.builds_new crc32c) plain
  have hblocks : BuilderCall.blocks [] calls = [] := by
    refine List.eq_nil_iff_forall_not_mem.mpr fun blk hblk => BuilderCall.nonempty_of_mem_blocks hblk ?_
    have hflat := BuilderCall.flatten_blocks [] calls
    rw [empty, List.append_nil, List.flatten_eq_nil_iff] at hflat
    exact hflat blk hblk
  rw [hblocks, List.nil_append, List.append_eq_nil_iff] at heq
  obtain rfl : bs = [] := heq.1
  obtain rfl : cur = [] := by
    by_contra hcur
    simp [hcur] at heq
  obtain ⟨raw, hraw⟩ : ∃ raw, BuilderCall.file crc32c calls
      = TableBuilder.rawBlock crc32c raw ++ (Footer.mk ⟨0, raw.length⟩ ⟨0, 0⟩ ⟨0, 0⟩).encode := by
    have hdata : (BuilderCall.run crc32c calls).dataBlock = [] := hbuilds.data_eq
    have hindex (file : Bytes) (offset : ℕ) (filter : FilterBlockBuilder) :
        { BuilderCall.run crc32c calls with
          file := file, offset := offset, filterBlock := filter, dataBlock := [] }.fullIndex = [] :=
      hbuilds.index_eq
    refine ⟨(BuilderCall.run crc32c calls).filterBlock.flush.finish, ?_⟩
    have hfile : (BuilderCall.run crc32c calls).file = [] := hbuilds.file_eq
    have hoffset : (BuilderCall.run crc32c calls).offset = 0 := hbuilds.offset_eq
    simp only [BuilderCall.file, TableBuilder.finish, TableBuilder.flush, TableBuilder.flushWith, hdata,
      List.isEmpty_nil, if_true, TableBuilder.writeRawBlock, TableBuilder.addIndexEntry_eq, hindex,
      hfile, hoffset, List.nil_append]
  have hlength : (BuilderCall.file crc32c calls).length
      = (TableBuilder.rawBlock crc32c raw).length + Footer.kEncodedLength := by
    rw [hraw, List.length_append, Footer.length_encode]
  have hfits : (Footer.mk ⟨0, raw.length⟩ ⟨0, 0⟩ ⟨0, 0⟩).Fits := by
    rw [hlength, TableBuilder.length_rawBlock] at small
    simp only [Footer.Fits, List.mem_cons, List.not_mem_nil, or_false, forall_eq_or_imp, forall_eq]
    omega
  have hfooter : readAt (BuilderCall.file crc32c calls)
      ((BuilderCall.file crc32c calls).length - Footer.kEncodedLength) Footer.kEncodedLength
      = (Footer.mk ⟨0, raw.length⟩ ⟨0, 0⟩ ⟨0, 0⟩).encode :=
    readAt_of_eq (TableBuilder.rawBlock crc32c raw) [] (by rw [hraw, List.append_nil])
      (by rw [hlength, Nat.add_sub_cancel]) (Footer.length_encode _).symm
  rw [new, if_neg (by rw [hlength]; omega), hfooter, Footer.decode_encode hfits]
  rfl

/-- `seek(K1, K2)` on a new iterator over the table that the calls write, and `next()` until `valid()`
is false, yield the entries. -/
def YieldsRange (crc32c : Bytes → ℕ) (calls : List BuilderCall) (k1 k2 : InternalKey)
    (out : List (Entry Bytes)) : Prop :=
  ∃ it it', TableIterator.new (BuilderCall.file crc32c calls)
      (BuilderCall.file crc32c calls).length = .ok it ∧
    it.seekRange k1.encode k2.encode = .ok it' ∧
    ∀ rounds, (calls.flatMap BuilderCall.entries).length ≤ rounds →
      it'.drain rounds = .ok (out.map Entry.toBlock)

/-- The iterator is deterministic. -/
theorem YieldsRange.map_toBlock_eq {calls : List BuilderCall} {k1 k2 : InternalKey}
    {out out' : List (Entry Bytes)} (h : YieldsRange crc32c calls k1 k2 out)
    (h' : YieldsRange crc32c calls k1 k2 out') : out.map Entry.toBlock = out'.map Entry.toBlock := by
  obtain ⟨it, it', hnew, hseek, hdrain⟩ := h
  obtain ⟨jt, jt', hnew', hseek', hdrain'⟩ := h'
  obtain rfl : it = jt := Outcome.ok.inj (hnew.symm.trans hnew')
  obtain rfl : it' = jt' := Outcome.ok.inj (hseek.symm.trans hseek')
  exact Outcome.ok.inj ((hdrain _ le_rfl).symm.trans (hdrain' _ le_rfl))

/-- A range of a table without entries. -/
theorem yieldsRange_nil {calls : List BuilderCall} (plain : ∀ c ∈ calls, c.Plain)
    (empty : calls.flatMap BuilderCall.entries = [])
    (small : (BuilderCall.file crc32c calls).length < 2 ^ 64) (k1 k2 : InternalKey) :
    YieldsRange crc32c calls k1 k2 [] := by
  refine ⟨_, _, new_of_empty plain empty small, rfl, fun rounds _ => ?_⟩
  cases rounds with
  | zero => rfl
  | succ rounds => rfl

/-- **What the iterator yields**: the range, of the blocks that are read. -/
theorem yieldsRange_rangeBlocks {calls : List BuilderCall} (plain : ∀ c ∈ calls, c.Plain)
    (small : (BuilderCall.file crc32c calls).length < 2 ^ 32) (k1 k2 : InternalKey) :
    YieldsRange crc32c calls k1 k2 (rangeEntries k1.userKey k2.userKey
      (rangeBlocks k1.userKey k2.userKey (BuilderCall.blocks [] calls)).flatten) := by
  have hflat := BuilderCall.flatten_blocks [] calls
  rw [List.nil_append] at hflat
  have hnonempty : ∀ blk ∈ BuilderCall.blocks [] calls, blk ≠ [] :=
    fun blk hblk => BuilderCall.nonempty_of_mem_blocks hblk
  by_cases hempty : calls.flatMap BuilderCall.entries = []
  · have hblocks : BuilderCall.blocks [] calls = [] := by
      refine List.eq_nil_iff_forall_not_mem.mpr fun blk hblk => hnonempty blk hblk ?_
      rw [hempty, List.flatten_eq_nil_iff] at hflat
      exact hflat blk hblk
    rw [hblocks]
    exact yieldsRange_nil plain hempty (small.trans (by decide)) k1 k2
  · obtain ⟨filter, -, hfile⟩ := BuilderCall.file_layout crc32c plain hempty
    have hne : BuilderCall.blocks [] calls ≠ [] := by
      intro hnil
      rw [hnil] at hflat
      exact hempty hflat.symm
    rw [hfile] at small
    obtain ⟨it, it', hnew, hseek, hdrain⟩ :=
      TableIterator.seekRange_layoutFile hne hnonempty small k1 k2
    rw [hflat] at hdrain
    exact ⟨it, it', by rwa [hfile], hseek, hdrain⟩

end TableIterator

/-- **The iterator of a table yields what was added to it.**  Whatever the calls of `Add` and
`Flush` are: after `seekToFirst`, `next()` until `valid()` is false goes over the pairs that were
added, in order; the assertions of `key()`, `value()` and `next()` hold wherever `valid()` is true.
The blocks are shorter than the 32-bit positions of their iterators can say. -/
theorem tableIterator_yields_added (crc32c : Bytes → ℕ) {calls : List BuilderCall}
    (plain : ∀ c ∈ calls, c.Plain) (ne : calls.flatMap BuilderCall.entries ≠ [])
    (file : (BuilderCall.file crc32c calls).length < 2 ^ 64)
    (data : ∀ blk ∈ BuilderCall.blocks [] calls, (blockContents blk).length < 2 ^ 32)
    (index : (blockBytes (indexEntries 0 (BuilderCall.blocks [] calls))).length < 2 ^ 32) :
    ∃ it it', TableIterator.new (BuilderCall.file crc32c calls)
        (BuilderCall.file crc32c calls).length = .ok it ∧
      it.seekToFirst = .ok it' ∧
      ∀ rounds, (calls.flatMap BuilderCall.entries).length ≤ rounds →
        it'.drain rounds = .ok ((calls.flatMap BuilderCall.entries).map Entry.toBlock) := by
  obtain ⟨filter, -, hfile⟩ := BuilderCall.file_layout crc32c plain ne
  have hflat := BuilderCall.flatten_blocks [] calls
  rw [List.nil_append] at hflat
  have hne : BuilderCall.blocks [] calls ≠ [] := by
    intro hnil
    rw [hnil] at hflat
    exact ne hflat.symm
  rw [hfile] at file ⊢
  obtain ⟨it, it', bpre, mid, rest, hnew, hseek, hat, hmid, hleft⟩ :=
    TableIterator.seekToFirst_layoutFile hne
      (fun blk hblk => BuilderCall.nonempty_of_mem_blocks hblk) ⟨file, data, index⟩
  rw [hflat] at hleft
  refine ⟨it, it', hnew, hseek, fun rounds hrounds => ?_⟩
  rw [hat.drain (.inl hmid) (by rwa [hleft, List.length_map]), hleft]

/-- Three entries, with a `Flush` behind the first. -/
def threeAdded : List BuilderCall :=
  [.add (.ofWrite [1] 5 .kTypeValue) [7], .flush true, .add (.ofWrite [1] 4 .kTypeValue) [],
    .add (.ofWrite [2] 3 .kTypeDeletion) [8, 9]]

/-- Two blocks, the second with two entries; one value is empty. -/
theorem tableIterator_yields_three :
    ∃ it it', TableIterator.new (BuilderCall.file (fun _ => 0) threeAdded)
        (BuilderCall.file (fun _ => 0) threeAdded).length = .ok it ∧
      it.seekToFirst = .ok it' ∧ ∀ rounds, 3 ≤ rounds →
        it'.drain rounds = .ok [((InternalKey.ofWrite [1] 5 .kTypeValue).encode, [7]),
          ((InternalKey.ofWrite [1] 4 .kTypeValue).encode, []),
          ((InternalKey.ofWrite [2] 3 .kTypeDeletion).encode, [8, 9])] := by
  have hplain : ∀ c ∈ threeAdded, c.Plain := by simp [threeAdded, BuilderCall.Plain]
  have hne : threeAdded.flatMap BuilderCall.entries ≠ [] := by simp [threeAdded, BuilderCall.entries]
  have hlength : (BuilderCall.file (fun _ => 0) threeAdded).length ≤ _ :=
    BuilderCall.length_file_le hplain hne
  exact tableIterator_yields_added (fun _ => 0) hplain hne (hlength.trans_lt (by decide)) (by decide)
    (by decide)

/-- **The iterator of a table yields the entries of a range, in the order of the table, exactly if the
index leads to them**: the last user key of some block is in the range, or no block but the first
has an entry of it. -/
theorem tableIterator_yields_iff (crc32c : Bytes → ℕ) {calls : List BuilderCall}
    (plain : ∀ c ∈ calls, c.Plain)
    (sorted : (calls.flatMap BuilderCall.entries).Pairwise fun a b => a.key ≤ b.key)
    (small : (BuilderCall.file crc32c calls).length < 2 ^ 32) (k1 k2 : InternalKey) :
    TableIterator.YieldsRange crc32c calls k1 k2
        (inRange k1.userKey k2.userKey (calls.flatMap BuilderCall.entries))
      ↔ BlocksLead k1.userKey k2.userKey (BuilderCall.blocks [] calls) := by
  have hflat := BuilderCall.flatten_blocks [] calls
  rw [List.nil_append] at hflat
  have husers : (BuilderCall.blocks [] calls).flatten.Pairwise
      fun a b => a.key.userKey ≤ b.key.userKey := by
    rw [hflat]
    exact sorted.imp fun h => InternalKey.userKey_le_of_le h
  have hsub := (rangeBlocks_sublist k1.userKey k2.userKey (BuilderCall.blocks [] calls)).flatten
  have hyields := TableIterator.yieldsRange_rangeBlocks plain small k1 k2
  have hread : rangeEntries k1.userKey k2.userKey
      (rangeBlocks k1.userKey k2.userKey (BuilderCall.blocks [] calls)).flatten
      = inRange k1.userKey k2.userKey
        (rangeBlocks k1.userKey k2.userKey (BuilderCall.blocks [] calls)).flatten :=
    SortedCut.takeWhile_dropWhile_lt_le (husers.sublist hsub) _ _
  rw [hread] at hyields
  rw [← inRange_rangeBlocks_iff (fun blk hblk => BuilderCall.nonempty_of_mem_blocks hblk) husers, hflat]
  constructor
  · intro h
    have hcount := congrArg List.length (hyields.map_toBlock_eq h)
    simp only [List.length_map] at hcount
    rw [hflat] at hsub
    exact (hsub.filter _).eq_of_length hcount
  · intro h
    rwa [h] at hyields

/-- The two versions of a key that stand in two blocks. -/
theorem tableIterator_yields_versions :
    TableIterator.YieldsRange (fun _ => 0) threeAdded (queryKey 9 [1]) (queryKey 9 [1])
      [⟨.ofWrite [1] 5 .kTypeValue, [7]⟩, ⟨.ofWrite [1] 4 .kTypeValue, []⟩] := by
  have hplain : ∀ c ∈ threeAdded, c.Plain := by simp [threeAdded, BuilderCall.Plain]
  have hlength : (BuilderCall.file (fun _ => 0) threeAdded).length ≤ _ :=
    BuilderCall.length_file_le hplain (by simp [threeAdded, BuilderCall.entries])
  refine (tableIterator_yields_iff (fun _ => 0) hplain (by decide) (hlength.trans_lt (by decide))
    (queryKey 9 [1]) (queryKey 9 [1])).mpr (.inl ⟨[⟨.ofWrite [1] 5 .kTypeValue, [7]⟩], ?_, ?_⟩)
  · exact List.mem_cons_self
  · decide

end Lsmkv
