import Lsmkv.TableIteration

/-!
# The model block of a table

A table whose builder has a `LazyGreedyPLRTrainer` (`src/include/model.h`, `src/model.cpp`) has a
model block: for every data block the last user key, the offsets of its first and its last entry,
and linear segments that predict the offset of an entry from its user key.  The keys are eight bytes
and the values sixteen, so that entries are forty bytes apart.  `FindByModel` (`src/reader.cpp`)
takes the first block whose last key is not below the key it looks for, and of the predictions of
all its segments a window: each prediction with eighty bytes to both sides, cut to the block and
widened to whole entries.  `ReadOne` reads the window, with one more entry behind it, and searches
these bytes as it searches a block.

The numbers of a segment are floating point; a segment is a parameter here (`Segment`), and so is
what its sixteen bytes predict.  What the source does with a prediction is in `window`, and what it
is good for in `window_covers`: where one prediction is right within eighty bytes, the window starts
at an entry at or before the one that is looked for, and reaches behind it.  The builder is
`TableBuilder` with the trainer beside it (`ModelBuilder`), and its file has the parts of
`layoutFile` with one more before the index (`modelFile`).  On such a file the model leads to what
the index leads to, whatever the segments are, if for every entry some segment of its block is right
within eighty bytes (`readByModel_eq_readByIndex`).
-/

namespace Lsmkv

open ByteCode

/-! ## Keys as numbers -/

/-- `std::byteswap` of 64 bits. -/
def byteswap (n : ℕ) : ℕ := (fixedDecode 8 (fixedEncode 8 n).reverse).getD 0

/-- `DecodeFixed64BigEnd`. -/
def decodeFixed64BigEnd (b : Bytes) : Outcome ℕ := do
  let value ← Outcome.ofOption (fixedDecode 8 b)
  .ok (byteswap value)

/-- The number that a user key of eight bytes stands for. -/
def keyNumber (u : Bytes) : ℕ := byteswap ((fixedDecode 8 u).getD 0)

theorem fixedEncode_byteswap (n : ℕ) : fixedEncode 8 (byteswap n) = (fixedEncode 8 n).reverse := by
  have hlength : (fixedEncode 8 n).reverse.length = 8 := by
    rw [List.length_reverse, length_fixedEncode]
  obtain ⟨m, hm⟩ := fixedDecode_isSome hlength.ge
  rw [byteswap, hm, Option.getD_some, fixedEncode_of_fixedDecode hm, List.take_of_length_le hlength.le]

/-- The key that a trainer keeps, swapped back, is the user key. -/
theorem fixedEncode_keyNumber {u : Bytes} (eight : u.length = 8) :
    fixedEncode 8 (byteswap (keyNumber u)) = u := by
  obtain ⟨n, hn⟩ := fixedDecode_isSome eight.ge
  rw [fixedEncode_byteswap, keyNumber, fixedEncode_byteswap, List.reverse_reverse, hn,
    Option.getD_some, fixedEncode_of_fixedDecode hn, List.take_of_length_le eight.le]

theorem decodeFixed64BigEnd_encode {k : InternalKey} (eight : k.userKey.length = 8) :
    decodeFixed64BigEnd k.encode = .ok (keyNumber k.userKey) := by
  obtain ⟨n, hn⟩ := fixedDecode_isSome eight.ge
  have hencode : fixedDecode 8 k.encode = some n := (fixedDecode_append eight.ge _).trans hn
  rw [decodeFixed64BigEnd, hencode, keyNumber, hn]
  rfl

/-! ## Training -/

/-- `Segment`: its numbers and the points it has taken, a segment without points, the next point
with the answer whether all still lie near the line, and the sixteen bytes of slope and offset. -/
structure Segment where
  State : Type
  clear : State
  update : State → ℕ → ℕ → State × Bool
  encode : State → Bytes
  length_encode : ∀ s, (encode s).length = 16

/-- `BlockTrainer::Points`. -/
structure Point where
  key : ℕ
  y : ℕ

/-- `Linear::linear_params_size`. -/
def linearParamsSize : ℕ := 16

/-- `Linear::model_block_size`. -/
def modelBlockSize : ℕ := 20

namespace LazyGreedyPLRTrainer

/-- The loop of `BlockTrainer::Train` from an open segment on, with its `is_init`: the segments it
appends. -/
def segmentsFrom (seg : Segment) : seg.State → Bool → List Point → Outcome (List Bytes)
  | s, isInit, [] => .ok (if isInit then [seg.encode s] else [])
  | s, _, p :: points =>
      if (seg.update s p.key p.y).2 then segmentsFrom seg (seg.update s p.key p.y).1 true points
      -- `assert(current_segment.update(key, y))` on the cleared segment.
      else if (seg.update seg.clear p.key p.y).2 then do
        let segments ← segmentsFrom seg (seg.update seg.clear p.key p.y).1 true points
        .ok (seg.encode (seg.update s p.key p.y).1 :: segments)
      else .fault

/-- `rep_` of a `BlockTrainer`: the header, with the number of the segments, and the segments. -/
def blockRep (back : ℕ) (frontY backY : ℕ) (segments : List Bytes) : Bytes :=
  fixedEncode 8 (byteswap back) ++ fixedEncode 4 segments.length ++ fixedEncode 4 frontY
    ++ fixedEncode 4 backY ++ segments.flatten

/-- `BlockTrainer::Train`. -/
def trainBlock (seg : Segment) (points : List Point) : Outcome Bytes := do
  let front ← Outcome.ofOption points.head?
  let back ← Outcome.ofOption points.getLast?
  let segments ← segmentsFrom seg seg.clear false points
  .ok (blockRep back.key front.y back.y segments)

/-- `Train`: the contents of the model block. -/
def train (seg : Segment) : List (List Point) → Outcome Bytes
  | [] => .ok []
  | points :: trainers => do
      let rep ← trainBlock seg points
      let reps ← train seg trainers
      .ok (rep ++ reps)

end LazyGreedyPLRTrainer

/-- `LazyGreedyPLRTrainer`: the points of each `BlockTrainer`. -/
structure LazyGreedyPLRTrainer where
  isInit : Bool
  trainers : List (List Point)

namespace LazyGreedyPLRTrainer

/-- `Add(key, y)`, with the reads of `BlockTrainer::Add`. -/
def add (t : LazyGreedyPLRTrainer) (key : Bytes) (y : ℕ) : Outcome LazyGreedyPLRTrainer := do
  let high ← decodeFixed64BigEnd key
  let _low ← Outcome.ofOption (fixedDecode 8 (key.drop 8))
  let trainers := if t.isInit then t.trainers else t.trainers ++ [[]]
  .ok ⟨true, trainers.dropLast ++ [trainers.getLastD [] ++ [⟨high, y⟩]]⟩

/-- `End()`. -/
def finish (t : LazyGreedyPLRTrainer) : LazyGreedyPLRTrainer := { t with isInit := false }

end LazyGreedyPLRTrainer

/-! ## The builder with a trainer -/

/-- A `TableBuilder` that was created with `open_model`. -/
structure ModelBuilder where
  table : TableBuilder
  trainer : LazyGreedyPLRTrainer

namespace ModelBuilder

/-- A builder on a new file. -/
def new : ModelBuilder := ⟨.new, false, []⟩

variable (crc32c : Bytes → ℕ)

/-- `Flush(next_index_entry)`. -/
def flushWith (b : ModelBuilder) (nextIndexEntry : Bool) : ModelBuilder :=
  ⟨b.table.flushWith crc32c nextIndexEntry, b.trainer.finish⟩

/-- `Add(key, value)`; the offset of the entry is passed in 32 bits. -/
def add (b : ModelBuilder) (key : InternalKey) (value : Bytes) : Outcome ModelBuilder := do
  let table := b.table.addIndexEntry
  let trainer ← b.trainer.add key.encode ((table.dataBlock.length + table.offset) % 2 ^ 32)
  let b : ModelBuilder := ⟨table.appendEntry key value, trainer⟩
  .ok (if blockSize ≤ b.table.dataBlock.length then b.flushWith crc32c true else b)

/-- One call; `Add(key, value, info)` does not train, but ends the block where it is full. -/
def apply (b : ModelBuilder) : BuilderCall → Outcome ModelBuilder
  | .add key value => b.add crc32c key value
  | .addInfo key value => .ok ⟨(b.table.addInfo crc32c key value).1,
      if blockSize ≤ (b.table.dataBlock ++ entryBytes (key.encode, value)).length
        then b.trainer.finish else b.trainer⟩
  | .flush nextIndexEntry => .ok (b.flushWith crc32c nextIndexEntry)
  | .setLastKey key => .ok { b with table := b.table.setLastKey key }

/-- Calls on a builder. -/
def run (b : ModelBuilder) : List BuilderCall → Outcome ModelBuilder
  | [] => .ok b
  | call :: calls => do
      let b ← b.apply crc32c call
      run b calls

/-- `Finish`: the model block stands between the filter and the index. -/
def finish (seg : Segment) (b : ModelBuilder) : Outcome Bytes := do
  let b := b.flushWith crc32c true
  let (filterBlockHandle, table) := b.table.writeRawBlock crc32c b.table.filterBlock.finish
  let rep ← LazyGreedyPLRTrainer.train seg b.trainer.trainers
  let (modelBlockHandle, table) := table.writeRawBlock crc32c rep
  let table := table.addIndexEntry
  let (indexBlockHandle, table) :=
    if table.indexBlock.isEmpty then (⟨0, 0⟩, table) else table.writeRawBlock crc32c table.indexBlock
  .ok (table.file ++ (Footer.mk filterBlockHandle indexBlockHandle modelBlockHandle).encode)

/-- The file of a table: calls on a new builder, and `Finish`. -/
def file (seg : Segment) (calls : List BuilderCall) : Outcome Bytes := do
  let b ← new.run crc32c calls
  b.finish crc32c seg

end ModelBuilder

/-! ## Reading with the model -/

/-- `Linear::Predict`, of the parameters of a segment and a key. -/
abbrev Predictor : Type := Bytes → ℕ → Int32

/-- The parameters of the segments in `linears`. -/
def linearParams (linears : Bytes) (size : ℕ) : List Bytes :=
  (List.range size).map fun i => (linears.drop (i * linearParamsSize)).take linearParamsSize

/-- The window of a block from `start` to `stop`: eighty bytes to both sides of every prediction,
cut to the block and widened to whole entries.  (`predict - off` is an `int32_t` in the source; it
is taken to be in its range.) -/
def window (predictions : List ℤ) (start stop : ℤ) : ℤ × ℤ :=
  let low := predictions.foldl (fun acc predict => min acc (predict - 2 * (blobSize : ℤ))) (2 ^ 32 - 1)
  let high := predictions.foldl (fun acc predict => max acc (predict + 2 * (blobSize : ℤ))) 0
  let low := max (max low start) 0
  let low := low - (low - start).tmod 40
  let high := max (max (min high stop) 0) low
  let high := high + (40 - (high - start).tmod 40)
  (low, high)

/-- The location in the block whose segments are in `linears`. -/
def locate (predict : Predictor) (key : ℕ) (linears : Bytes) (size start stop : ℕ) : ℕ × ℕ :=
  let predictions := (linearParams linears size).map fun l => (predict l key).toInt
  ((window predictions start stop).1.toNat, (window predictions start stop).2.toNat)

/-- The loop of `FindByModel` over the models of the blocks; a size is added up in 32 bits.  The
number bounds the rounds. -/
def searchModel (predict : Predictor) (key : ℕ) (userKey : Bytes) : ℕ → Bytes → Outcome (ℕ × ℕ)
  | 0, input => if input.isEmpty then .fail .kNotFound else .fault
  | rounds + 1, input =>
      if input.isEmpty then .fail .kNotFound
      else if input.length < modelBlockSize then .fail .kCorruption
      else do
        let lastKey := input.take 8
        let size ← Outcome.ofOption (fixedDecode 4 (input.drop 8))
        let start ← Outcome.ofOption (fixedDecode 4 (input.drop 12))
        let stop ← Outcome.ofOption (fixedDecode 4 (input.drop 16))
        if input.length < (size * linearParamsSize + modelBlockSize) % 2 ^ 32 then .fail .kCorruption
        else if ((stop : ℤ) - start).tmod 40 ≠ 0 then .fault
        else if strCompare userKey lastKey ≠ .gt then
          let linears := (input.drop modelBlockSize).take (size * linearParamsSize % 2 ^ 32)
          .ok (locate predict key linears size start stop)
        else
          let rest := input.drop ((size * linearParamsSize + modelBlockSize) % 2 ^ 32)
          searchModel predict key userKey rounds rest

/-- `FindByModel(input, internal_key, location)`. -/
def findByModel (predict : Predictor) (input : Bytes) (internalKey : InternalKey) : Outcome (ℕ × ℕ) := do
  let key ← decodeFixed64BigEnd internalKey.encode
  searchModel predict key internalKey.userKey input.length input

/-- The branch of `ReadOne` with a model block: its window, and the search in it. -/
def readByModel (predict : Predictor) (file : Bytes) (footer : Footer) (internalKey : InternalKey)
    (vlogInfo : VLogEntryInfo) : Outcome VLogEntryInfo := do
  let model := readAt file footer.modelHandle.offset footer.modelHandle.size
  let location ← findByModel predict model internalKey
  let readSize := location.2 - location.1 + blobSize
  findInBlock (readAt file location.1 readSize) internalKey vlogInfo

/-- The branch of `ReadOne` without one: the index, and the search in the block it leads to. -/
def readByIndex (file : Bytes) (footer : Footer) (internalKey : InternalKey) (vlogInfo : VLogEntryInfo) :
    Outcome VLogEntryInfo := do
  let index := readAt file footer.indexHandle.offset footer.indexHandle.size
  let info ← filterInIndex index internalKey
  findInBlock (readAt file info.offset info.size) internalKey vlogInfo

/-! ## The window -/

theorem foldl_min_le (f : ℤ → ℤ) (l : List ℤ) (init : ℤ) :
    l.foldl (fun acc p => min acc (f p)) init ≤ init ∧
      ∀ p ∈ l, l.foldl (fun acc p => min acc (f p)) init ≤ f p := by
  induction l generalizing init with
  | nil => simp
  | cons q l ih =>
      obtain ⟨hinit, hall⟩ := ih (min init (f q))
      refine ⟨hinit.trans (min_le_left _ _), fun p hp => ?_⟩
      rcases List.mem_cons.mp hp with rfl | hp
      · exact hinit.trans (min_le_right _ _)
      · exact hall p hp

theorem le_foldl_max (f : ℤ → ℤ) (l : List ℤ) (init : ℤ) :
    init ≤ l.foldl (fun acc p => max acc (f p)) init ∧
      ∀ p ∈ l, f p ≤ l.foldl (fun acc p => max acc (f p)) init := by
  induction l generalizing init with
  | nil => simp
  | cons q l ih =>
      obtain ⟨hinit, hall⟩ := ih (max init (f q))
      refine ⟨(le_max_left _ _).trans hinit, fun p hp => ?_⟩
      rcases List.mem_cons.mp hp with rfl | hp
      · exact (le_max_right _ _).trans hinit
      · exact hall p hp

/-- **What one good prediction is worth.**  Whatever the other predictions are, the window starts at
an entry of the block that is at or before the one looked for, and reaches behind this one. -/
theorem window_covers {predictions : List ℤ} {start stop y : ℤ} (nonneg : 0 ≤ start) (ge : start ≤ y)
    (le : y ≤ stop) (aligned : (y - start) % 40 = 0) (near : ∃ p ∈ predictions, |p - y| ≤ 80) :
    ∃ j : ℕ, (window predictions start stop).1 = start + 40 * j ∧
      (window predictions start stop).1 ≤ y ∧ y + 40 ≤ (window predictions start stop).2 := by
  obtain ⟨p, hp, hnear⟩ := near
  obtain ⟨hbelow, habove⟩ := abs_le.mp hnear
  have hlow := (foldl_min_le (fun p => p - 2 * (blobSize : ℤ)) predictions (2 ^ 32 - 1)).2 p hp
  have hhigh := (le_foldl_max (fun p => p + 2 * (blobSize : ℤ)) predictions 0).2 p hp
  rw [window]
  dsimp only
  set low := predictions.foldl (fun acc predict => min acc (predict - 2 * (blobSize : ℤ))) (2 ^ 32 - 1)
  set high := predictions.foldl (fun acc predict => max acc (predict + 2 * (blobSize : ℤ))) 0
  simp only [blobSize, Nat.cast_ofNat] at hlow hhigh
  set first := max (max low start) 0 with hfirst
  have hstart : start ≤ first := (le_max_right _ _).trans (le_max_left _ _)
  have hfirst_le : first ≤ y := max_le (max_le (by omega) ge) (nonneg.trans ge)
  rw [Int.tmod_eq_emod_of_nonneg (sub_nonneg.mpr hstart)]
  set low' := first - (first - start) % 40 with hlow'
  have hcut : start ≤ low' := by omega
  set last := max (max (min high stop) 0) low' with hlast
  have hlast_ge : y ≤ last :=
    (le_min (by omega) le).trans ((le_max_left _ _).trans (le_max_left _ _))
  rw [Int.tmod_eq_emod_of_nonneg (by omega)]
  refine ⟨((first - start) / 40).toNat, ?_, ?_, ?_⟩
  · rw [Int.toNat_of_nonneg (by omega)]
    omega
  · omega
  · omega

/-! ## Searching what was trained -/

namespace LazyGreedyPLRTrainer

variable {seg : Segment}

/-- A block has at most one segment more than points behind its open one, each of sixteen bytes. -/
theorem segmentsFrom_spec {s : seg.State} {isInit : Bool} {points : List Point} {segments : List Bytes}
    (trained : segmentsFrom seg s isInit points = .ok segments) :
    segments.length ≤ points.length + 1 ∧ ∀ l ∈ segments, l.length = linearParamsSize := by
  induction points generalizing s isInit segments with
  | nil =>
      obtain rfl := Outcome.ok.inj trained
      cases isInit with
      | false => simp
      | true => simp [seg.length_encode, linearParamsSize]
  | cons p points ih =>
      rw [segmentsFrom] at trained
      by_cases hnear : (seg.update s p.key p.y).2 = true
      · rw [if_pos hnear] at trained
        obtain ⟨hlength, hsixteen⟩ := ih trained
        exact ⟨hlength.trans (by simp), hsixteen⟩
      · rw [if_neg hnear] at trained
        by_cases hfirst : (seg.update seg.clear p.key p.y).2 = true
        · rw [if_pos hfirst] at trained
          obtain ⟨rest, hrest, heq⟩ := Outcome.bind_eq_ok.mp trained
          obtain rfl := Outcome.ok.inj heq
          obtain ⟨hlength, hsixteen⟩ := ih hrest
          refine ⟨by simpa using hlength, fun l hl => ?_⟩
          rcases List.mem_cons.mp hl with rfl | hl
          · exact seg.length_encode _
          · exact hsixteen l hl
        · rw [if_neg hfirst] at trained
          cases trained

theorem trainBlock_eq_ok {points : List Point} {rep : Bytes} (trained : trainBlock seg points = .ok rep) :
    ∃ front back segments, points.head? = some front ∧ points.getLast? = some back ∧
      segmentsFrom seg seg.clear false points = .ok segments ∧
      rep = blockRep back.key front.y back.y segments := by
  obtain ⟨front, hfront, h⟩ := Outcome.bind_eq_ok.mp trained
  obtain ⟨back, hback, h⟩ := Outcome.bind_eq_ok.mp h
  obtain ⟨segments, hsegments, h⟩ := Outcome.bind_eq_ok.mp h
  refine ⟨front, back, segments, ?_, ?_, hsegments, (Outcome.ok.inj h).symm⟩
  · cases hhead : points.head? with
    | none => rw [hhead] at hfront; cases hfront
    | some p => rw [hhead] at hfront; rw [Outcome.ok.inj hfront]
  · cases hlast : points.getLast? with
    | none => rw [hlast] at hback; cases hback
    | some p => rw [hlast] at hback; rw [Outcome.ok.inj hback]

theorem train_cons_eq_ok {points : List Point} {trainers : List (List Point)} {reps : Bytes}
    (trained : train seg (points :: trainers) = .ok reps) :
    ∃ rep rest, trainBlock seg points = .ok rep ∧ train seg trainers = .ok rest ∧ reps = rep ++ rest := by
  obtain ⟨rep, hrep, h⟩ := Outcome.bind_eq_ok.mp trained
  obtain ⟨rest, hrest, h⟩ := Outcome.bind_eq_ok.mp h
  exact ⟨rep, rest, hrep, hrest, (Outcome.ok.inj h).symm⟩

theorem train_append_eq_ok {xs ys : List (List Point)} {reps : Bytes} (trained : train seg (xs ++ ys) = .ok reps) :
    ∃ rest, train seg ys = .ok rest := by
  induction xs generalizing reps with
  | nil => exact ⟨reps, trained⟩
  | cons points xs ih =>
      obtain ⟨-, rest, -, hrest, -⟩ := train_cons_eq_ok trained
      exact ih hrest

/-- The model block has bytes of every block. -/
theorem length_le_train {trainers : List (List Point)} {reps : Bytes} (trained : train seg trainers = .ok reps) :
    trainers.length ≤ reps.length := by
  induction trainers generalizing reps with
  | nil => exact Nat.zero_le _
  | cons points trainers ih =>
      obtain ⟨rep, rest, hrep, hrest, rfl⟩ := train_cons_eq_ok trained
      obtain ⟨-, -, segments, -, -, -, rfl⟩ := trainBlock_eq_ok hrep
      have hle := ih hrest
      simp only [blockRep, List.length_append, length_fixedEncode, List.length_cons]
      omega

theorem length_flatten_of_sixteen {segments : List Bytes}
    (sixteen : ∀ l ∈ segments, l.length = linearParamsSize) :
    segments.flatten.length = segments.length * linearParamsSize := by
  rw [List.length_flatten, List.map_congr_left sixteen, List.map_const', List.sum_replicate,
    smul_eq_mul]

theorem length_blockRep {back frontY backY : ℕ} {segments : List Bytes}
    (sixteen : ∀ l ∈ segments, l.length = linearParamsSize) :
    (blockRep back frontY backY segments).length
      = segments.length * linearParamsSize + modelBlockSize := by
  simp only [blockRep, List.length_append, length_fixedEncode, length_flatten_of_sixteen sixteen,
    modelBlockSize]
  omega

end LazyGreedyPLRTrainer

open LazyGreedyPLRTrainer

/-- The reader takes the segments apart as the trainer has put them together. -/
theorem linearParams_flatten {segments : List Bytes}
    (sixteen : ∀ l ∈ segments, l.length = linearParamsSize) :
    linearParams segments.flatten segments.length = segments := by
  induction segments with
  | nil => rfl
  | cons l segments ih =>
      have hl := sixteen l List.mem_cons_self
      have hrest := ih fun d hd => sixteen d (List.mem_cons_of_mem _ hd)
      rw [linearParams, List.length_cons, List.range_succ_eq_map, List.map_cons, List.map_map,
        List.flatten_cons]
      refine List.cons_eq_cons.mpr ⟨?_, ?_⟩
      · rw [Nat.zero_mul, List.drop_zero, List.take_left' hl]
      · conv_rhs => rw [← hrest]
        refine List.map_congr_left fun i _ => ?_
        show ((l ++ segments.flatten).drop ((i + 1) * linearParamsSize)).take linearParamsSize = _
        rw [Nat.succ_mul, Nat.add_comm, ← List.drop_drop, List.drop_left' hl]

/-- **One round of `FindByModel`** on the model of a block. -/
theorem searchModel_blockRep (predict : Predictor) (key : ℕ) (userKey : Bytes) (rounds : ℕ)
    {back frontY backY : ℕ} {segments : List Bytes}
    (sixteen : ∀ l ∈ segments, l.length = linearParamsSize)
    (few : segments.length * linearParamsSize + modelBlockSize < 2 ^ 32) (front_lt : frontY < 2 ^ 32)
    (back_lt : backY < 2 ^ 32) (aligned : ((backY : ℤ) - frontY).tmod 40 = 0) (rest : Bytes) :
    searchModel predict key userKey (rounds + 1) (blockRep back frontY backY segments ++ rest)
      = if strCompare userKey (fixedEncode 8 (byteswap back)) ≠ .gt
        then .ok (locate predict key segments.flatten segments.length frontY backY)
        else searchModel predict key userKey rounds rest := by
  have hlength := @length_blockRep back frontY backY segments sixteen
  have hempty : (blockRep back frontY backY segments ++ rest).isEmpty = false := by
    rw [List.isEmpty_eq_false_iff, ← List.length_pos_iff, List.length_append, hlength]
    simp [modelBlockSize]
  have hlong : ¬ (blockRep back frontY backY segments ++ rest).length < modelBlockSize := by
    rw [List.length_append, hlength]
    omega
  have hbytes : blockRep back frontY backY segments ++ rest = fixedEncode 8 (byteswap back)
      ++ (fixedEncode 4 segments.length ++ (fixedEncode 4 frontY ++ (fixedEncode 4 backY
        ++ (segments.flatten ++ rest)))) := by
    simp only [blockRep, List.append_assoc]
  -- the fields of the header, one behind the other
  have hdrop8 : (blockRep back frontY backY segments ++ rest).drop 8 = fixedEncode 4 segments.length
      ++ (fixedEncode 4 frontY ++ (fixedEncode 4 backY ++ (segments.flatten ++ rest))) := by
    rw [hbytes, List.drop_left' (length_fixedEncode _ _)]
  have hdrop12 : (blockRep back frontY backY segments ++ rest).drop 12 = fixedEncode 4 frontY
      ++ (fixedEncode 4 backY ++ (segments.flatten ++ rest)) := by
    rw [show 12 = 8 + 4 from rfl, ← List.drop_drop, hdrop8, List.drop_left' (length_fixedEncode _ _)]
  have hdrop16 : (blockRep back frontY backY segments ++ rest).drop 16
      = fixedEncode 4 backY ++ (segments.flatten ++ rest) := by
    rw [show 16 = 12 + 4 from rfl, ← List.drop_drop, hdrop12, List.drop_left' (length_fixedEncode _ _)]
  have hdrop20 : (blockRep back frontY backY segments ++ rest).drop modelBlockSize
      = segments.flatten ++ rest := by
    rw [show modelBlockSize = 16 + 4 from rfl, ← List.drop_drop, hdrop16,
      List.drop_left' (length_fixedEncode _ _)]
  have htake : (blockRep back frontY backY segments ++ rest).take 8 = fixedEncode 8 (byteswap back) := by
    rw [hbytes, List.take_left' (length_fixedEncode _ _)]
  -- the sizes are read back as they were, since they fit 32 bits
  have hmod : ∀ n, n < 2 ^ 32 → n % 256 ^ 4 = n := fun n hn => Nat.mod_eq_of_lt (by simpa using hn)
  have hcount : segments.length < 2 ^ 32 := by
    simp only [linearParamsSize] at few
    omega
  have hlinears : (segments.flatten ++ rest).take (segments.length * linearParamsSize % 2 ^ 32)
      = segments.flatten := by
    refine List.take_left' ?_
    rw [Nat.mod_eq_of_lt (by omega), length_flatten_of_sixteen sixteen]
  have hfits : ¬ (blockRep back frontY backY segments ++ rest).length
      < (segments.length * linearParamsSize + modelBlockSize) % 2 ^ 32 := by
    rw [Nat.mod_eq_of_lt few, List.length_append, hlength]
    omega
  have hrest : (blockRep back frontY backY segments ++ rest).drop
      ((segments.length * linearParamsSize + modelBlockSize) % 2 ^ 32) = rest := by
    rw [Nat.mod_eq_of_lt few]
    exact List.drop_left' hlength
  rw [searchModel, hempty, if_neg Bool.false_ne_true, if_neg hlong, hdrop8, hdrop12, hdrop16]
  simp only [fixedDecode_fixedEncode_append, Outcome.ofOption_some, Outcome.ok_bind, hmod _ hcount,
    hmod _ front_lt, hmod _ back_lt, htake, if_neg hfits, hdrop20, hlinears, hrest]
  rw [if_neg (not_not.mpr aligned)]

/-! ## The points of a table -/

/-- The points of a block at an offset: its keys, and the offsets of its entries in 32 bits. -/
def blockPoints : ℕ → List (Entry Bytes) → List Point
  | _, [] => []
  | offset, e :: blk =>
      ⟨keyNumber e.key.userKey, offset % 2 ^ 32⟩ :: blockPoints (offset + (entryBytes e.toBlock).length) blk

/-- The points of consecutive blocks, the first at an offset. -/
def tablePoints : ℕ → List (List (Entry Bytes)) → List (List Point)
  | _, [] => []
  | offset, blk :: blocks =>
      blockPoints offset blk :: tablePoints (offset + ((blockContents blk).length + kBlockTrailerSize)) blocks

theorem length_tablePoints (offset : ℕ) (blocks : List (List (Entry Bytes))) :
    (tablePoints offset blocks).length = blocks.length := by
  induction blocks generalizing offset with
  | nil => rfl
  | cons blk blocks ih => rw [tablePoints, List.length_cons, ih, List.length_cons]

theorem blockPoints_append (offset : ℕ) (xs ys : List (Entry Bytes)) :
    blockPoints offset (xs ++ ys)
      = blockPoints offset xs ++ blockPoints (offset + (blockContents xs).length) ys := by
  induction xs generalizing offset with
  | nil => rfl
  | cons e xs ih =>
      have hlength : (blockContents (e :: xs)).length
          = (entryBytes e.toBlock).length + (blockContents xs).length := by
        rw [blockContents, List.map_cons, blockBytes_cons, List.length_append]
        rfl
      rw [List.cons_append, blockPoints, blockPoints, ih, hlength, Nat.add_assoc]
      rfl

theorem length_blockPoints (offset : ℕ) (blk : List (Entry Bytes)) :
    (blockPoints offset blk).length = blk.length := by
  induction blk generalizing offset with
  | nil => rfl
  | cons e blk ih => rw [blockPoints, List.length_cons, ih, List.length_cons]

theorem tablePoints_append (crc32c : Bytes → ℕ) (offset : ℕ) (xs ys : List (List (Entry Bytes))) :
    tablePoints offset (xs ++ ys)
      = tablePoints offset xs ++ tablePoints (offset + (dataBytes crc32c xs).length) ys := by
  induction xs generalizing offset with
  | nil => rfl
  | cons blk xs ih =>
      rw [List.cons_append, tablePoints, ih, tablePoints, dataBytes_cons, List.length_append,
        TableBuilder.length_rawBlock, Nat.add_assoc]
      rfl

namespace ModelBuilder

variable {crc32c : Bytes → ℕ} {b : ModelBuilder} {blocks : List (List (Entry Bytes))}
  {cur : List (Entry Bytes)}

/-- **What the state of a builder with a trainer means.**  Beside what it means without one: the
trainer has the points of the closed blocks, and those of the open block behind them, if it has an
entry. -/
structure Builds (crc32c : Bytes → ℕ) (b : ModelBuilder) (blocks : List (List (Entry Bytes)))
    (cur : List (Entry Bytes)) : Prop where
  table : b.table.Builds crc32c blocks cur
  isInit : b.trainer.isInit = !cur.isEmpty
  trainers : b.trainer.trainers = tablePoints 0 (blocks ++ if cur.isEmpty then [] else [cur])

theorem builds_new (crc32c : Bytes → ℕ) : Builds crc32c new [] [] :=
  ⟨TableBuilder.builds_new crc32c, rfl, rfl⟩

/-- `Flush()` ends the block of the trainer with the open block. -/
theorem Builds.flush (h : Builds crc32c b blocks cur) :
    Builds crc32c (b.flushWith crc32c true) (blocks ++ if cur.isEmpty then [] else [cur]) [] where
  table := h.table.flush
  isInit := rfl
  trainers := by simpa [flushWith, LazyGreedyPLRTrainer.finish] using h.trainers

/-- The point of an entry enters the block of the trainer. -/
theorem Builds.train (h : Builds crc32c b blocks cur) {e : Entry Bytes} (eight : e.key.userKey.length = 8) :
    b.trainer.add e.key.encode
        ((b.table.addIndexEntry.dataBlock.length + b.table.addIndexEntry.offset) % 2 ^ 32)
      = .ok ⟨true, tablePoints 0 (blocks ++ [cur ++ [e]])⟩ := by
  have hdata : b.table.addIndexEntry.dataBlock = blockContents cur := by
    rw [TableBuilder.addIndexEntry_eq]
    exact h.table.data_eq
  have hoffset : b.table.addIndexEntry.offset = (dataBytes crc32c blocks).length := by
    rw [TableBuilder.addIndexEntry_eq]
    exact h.table.offset_eq
  have hlow : ∃ low, fixedDecode 8 (e.key.encode.drop 8) = some low := by
    refine fixedDecode_isSome ?_
    rw [List.length_drop, InternalKey.length_encode, eight]
  obtain ⟨low, hlow⟩ := hlow
  have hpoints : blockPoints (dataBytes crc32c blocks).length (cur ++ [e])
      = blockPoints (dataBytes crc32c blocks).length cur
        ++ [⟨keyNumber e.key.userKey, ((blockContents cur).length + (dataBytes crc32c blocks).length) % 2 ^ 32⟩] := by
    rw [blockPoints_append, Nat.add_comm (blockContents cur).length]
    rfl
  have htrainers := h.trainers
  rw [tablePoints_append crc32c, Nat.zero_add] at htrainers ⊢
  rw [LazyGreedyPLRTrainer.add, decodeFixed64BigEnd_encode eight, hlow, Outcome.ok_bind,
    Outcome.ofOption_some, Outcome.ok_bind, h.isInit, hdata, hoffset]
  by_cases hcur : cur = []
  · subst hcur
    simp only [List.isEmpty_nil, if_true, tablePoints, List.append_nil] at htrainers
    simp [htrainers, tablePoints, blockPoints, blockContents]
  · have hempty : cur.isEmpty = false := by simpa using hcur
    simp only [hempty, if_false, Bool.false_eq_true] at htrainers
    simp [htrainers, hempty, tablePoints, hpoints]

/-- `Add` puts the entry at the end of the open block, and its point at the end of the block of the
trainer; both are closed when the block is full. -/
theorem Builds.add (h : Builds crc32c b blocks cur) {e : Entry Bytes} (eight : e.key.userKey.length = 8) :
    ∃ b', b.add crc32c e.key e.value = .ok b' ∧
      if blockSize ≤ (blockContents (cur ++ [e])).length then Builds crc32c b' (blocks ++ [cur ++ [e]]) []
      else Builds crc32c b' blocks (cur ++ [e]) := by
  have htable := h.table.add e
  have hdata : (b.table.addIndexEntry.appendEntry e.key e.value).dataBlock = blockContents (cur ++ [e]) := by
    rw [TableBuilder.addIndexEntry_eq]
    simp [TableBuilder.appendEntry, h.table.data_eq, blockContents, Entry.toBlock]
  have hadd : b.add crc32c e.key e.value = .ok (if blockSize ≤ (blockContents (cur ++ [e])).length
      then flushWith crc32c ⟨b.table.addIndexEntry.appendEntry e.key e.value, true,
        tablePoints 0 (blocks ++ [cur ++ [e]])⟩ true
      else ⟨b.table.addIndexEntry.appendEntry e.key e.value, true, tablePoints 0 (blocks ++ [cur ++ [e]])⟩) := by
    simp only [ModelBuilder.add, h.train eight, Outcome.ok_bind, hdata]
  refine ⟨_, hadd, ?_⟩
  by_cases hfull : blockSize ≤ (blockContents (cur ++ [e])).length
  · rw [if_pos hfull] at htable ⊢
    rw [if_pos hfull]
    have hfile : b.table.add crc32c e.key e.value
        = (b.table.addIndexEntry.appendEntry e.key e.value).flushWith crc32c true := by
      show (if blockSize ≤ (b.table.addIndexEntry.appendEntry e.key e.value).dataBlock.length then _ else _) = _
      rw [hdata, if_pos hfull]
      rfl
    rw [hfile] at htable
    exact ⟨htable, rfl, by simp [flushWith, LazyGreedyPLRTrainer.finish]⟩
  · rw [if_neg hfull] at htable ⊢
    rw [if_neg hfull]
    have hfile : b.table.add crc32c e.key e.value = b.table.addIndexEntry.appendEntry e.key e.value := by
      show (if blockSize ≤ (b.table.addIndexEntry.appendEntry e.key e.value).dataBlock.length then _ else _) = _
      rw [hdata, if_neg hfull]
    rw [hfile] at htable
    exact ⟨htable, by simp, by simp⟩

/-- The calls of a table: the state stands for the blocks that the calls end up in. -/
theorem Builds.run (h : Builds crc32c b blocks cur) {calls : List BuilderCall}
    (plain : ∀ c ∈ calls, c.Plain)
    (eight : ∀ e ∈ calls.flatMap BuilderCall.entries, e.key.userKey.length = 8) :
    ∃ b' bs' cur', b.run crc32c calls = .ok b' ∧ Builds crc32c b' bs' cur' ∧
      bs' ++ (if cur'.isEmpty then [] else [cur']) = blocks ++ BuilderCall.blocks cur calls := by
  induction calls generalizing b blocks cur with
  | nil => exact ⟨b, blocks, cur, rfl, h, rfl⟩
  | cons c calls ih =>
      have hplain := fun d hd => plain d (List.mem_cons_of_mem _ hd)
      rw [List.flatMap_cons] at eight
      have height := fun e he => eight e (List.mem_append_right _ he)
      cases c with
      | add key value =>
          obtain ⟨b', hb', hadd⟩ := h.add (e := ⟨key, value⟩)
            (eight _ (List.mem_append_left _ (List.mem_singleton_self _)))
          have hrun : b.run crc32c (.add key value :: calls) = b'.run crc32c calls := by
            rw [ModelBuilder.run, apply, hb', Outcome.ok_bind]
          rw [hrun, BuilderCall.blocks]
          split at hadd
          case isTrue hfull =>
            obtain ⟨b'', bs', cur', hb'', hbuilds, heq⟩ := ih hadd hplain height
            exact ⟨b'', bs', cur', hb'', hbuilds, by rw [heq, if_pos hfull, List.append_assoc]; rfl⟩
          case isFalse hfull =>
            obtain ⟨b'', bs', cur', hb'', hbuilds, heq⟩ := ih hadd hplain height
            exact ⟨b'', bs', cur', hb'', hbuilds, by rw [heq, if_neg hfull]⟩
      | flush next =>
          obtain rfl : next = true := plain _ List.mem_cons_self
          obtain ⟨b', bs', cur', hb', hbuilds, heq⟩ := ih h.flush hplain height
          exact ⟨b', bs', cur', hb', hbuilds, by rw [heq, BuilderCall.blocks, List.append_assoc]⟩
      | addInfo key value => exact absurd (plain _ List.mem_cons_self) id
      | setLastKey key => exact absurd (plain _ List.mem_cons_self) id

end ModelBuilder

/-! ## The layout of a table with a model block -/

/-- The footer of a table with the given blocks, filter and model block. -/
def modelFooter (crc32c : Bytes → ℕ) (blocks : List (List (Entry Bytes))) (filter model : Bytes) : Footer where
  metaindexHandle := ⟨(dataBytes crc32c blocks).length, filter.length⟩
  modelHandle := ⟨(dataBytes crc32c blocks).length + (filter.length + kBlockTrailerSize), model.length⟩
  indexHandle := ⟨(dataBytes crc32c blocks).length + (filter.length + kBlockTrailerSize)
    + (model.length + kBlockTrailerSize), (blockBytes (indexEntries 0 blocks)).length⟩

/-- A table file with a model block: data blocks, filter, model, index, footer. -/
def modelFile (crc32c : Bytes → ℕ) (blocks : List (List (Entry Bytes))) (filter model : Bytes) : Bytes :=
  dataBytes crc32c blocks ++ TableBuilder.rawBlock crc32c filter ++ TableBuilder.rawBlock crc32c model
    ++ TableBuilder.rawBlock crc32c (blockBytes (indexEntries 0 blocks))
    ++ (modelFooter crc32c blocks filter model).encode

section Layout

variable {crc32c : Bytes → ℕ} {seg : Segment} {blocks : List (List (Entry Bytes))}

/-- **The finished file**, where training does not stop at an assertion. -/
theorem ModelBuilder.Builds.finish {b : ModelBuilder} {cur : List (Entry Bytes)} {file : Bytes}
    (h : b.Builds crc32c blocks cur) (ne : blocks.flatten ++ cur ≠ [])
    (finished : b.finish crc32c seg = .ok file) :
    ∃ filter model, filter.length = bloomSize ∧
      (∀ e ∈ blocks.flatten ++ cur, e.key.userKey.length < 2 ^ 32 →
        keyMayMatch e.key.userKey filter = true) ∧
      LazyGreedyPLRTrainer.train seg (tablePoints 0 (blocks ++ if cur.isEmpty then [] else [cur]))
        = .ok model ∧
      file = modelFile crc32c (blocks ++ if cur.isEmpty then [] else [cur]) filter model := by
  have hflush := h.flush
  set bs := blocks ++ if cur.isEmpty then [] else [cur] with hbs
  have hflat : bs.flatten = blocks.flatten ++ cur := by
    rw [hbs]
    split <;> simp_all
  have hne : bs ≠ [] := by
    intro hnil
    rw [hnil] at hflat
    exact ne hflat.symm
  have hindex : (blockBytes (indexEntries 0 bs)).isEmpty = false := by
    rw [List.isEmpty_eq_false_iff, ne_eq, blockBytes_eq_nil, indexEntries_eq_nil]
    exact hne
  have hfull (file : Bytes) (offset : ℕ) :
      { (b.flushWith crc32c true).table with file := file, offset := offset }.fullIndex
        = blockBytes (indexEntries 0 bs) := hflush.table.index_eq
  have htrainers : (b.flushWith crc32c true).trainer.trainers = tablePoints 0 bs := by
    simpa using hflush.trainers
  obtain ⟨model, hmodel, heq⟩ := Outcome.bind_eq_ok.mp finished
  rw [htrainers] at hmodel
  refine ⟨(b.flushWith crc32c true).table.filterBlock.finish, model, hflush.table.covers.length_finish,
    fun e he hshort => ?_, hmodel, ?_⟩
  · refine hflush.table.covers.finish (List.mem_map_of_mem ?_) hshort
    rwa [hflat, List.append_nil]
  · simp only [TableBuilder.writeRawBlock, TableBuilder.addIndexEntry_eq, hfull, hindex] at heq
    rw [← Outcome.ok.inj heq]
    simp [modelFile, modelFooter, hflush.table.file_eq, hflush.table.offset_eq]

end Layout

/-! ## Finding the block -/

/-- A key of eight bytes and a value of sixteen. -/
def FixedLength (e : Entry Bytes) : Prop := e.key.userKey.length = 8 ∧ e.value.length = 16

theorem length_blockContents_of_fixed {blk : List (Entry Bytes)} (fixed : ∀ e ∈ blk, FixedLength e) :
    (blockContents blk).length = 40 * blk.length := by
  induction blk with
  | nil => rfl
  | cons e blk ih =>
      obtain ⟨hkey, hvalue⟩ := fixed e List.mem_cons_self
      have hrest := ih fun d hd => fixed d (List.mem_cons_of_mem _ hd)
      have hcons : (blockContents (e :: blk)).length
          = (entryBytes e.toBlock).length + (blockContents blk).length := by
        rw [blockContents, List.map_cons, blockBytes_cons, List.length_append]
        rfl
      rw [hcons, hrest, length_entryBytes, Entry.toBlock, InternalKey.length_encode, hkey, hvalue,
        List.length_cons]
      omega

section Search

variable {crc32c : Bytes → ℕ} {seg : Segment} {blk : List (Entry Bytes)} {e : Entry Bytes}

/-- The model of a block: its last key, and the offsets of its first and its last entry. -/
theorem trainBlock_blockPoints {offset : ℕ} {rep : Bytes} (last : blk.getLast? = some e)
    (fixed : ∀ e ∈ blk, FixedLength e) (small : offset + (blockContents blk).length < 2 ^ 32)
    (trained : trainBlock seg (blockPoints offset blk) = .ok rep) :
    ∃ segments, segmentsFrom seg seg.clear false (blockPoints offset blk) = .ok segments ∧
      (∀ l ∈ segments, l.length = linearParamsSize) ∧
      segments.length * linearParamsSize + modelBlockSize < 2 ^ 32 ∧
      rep = blockRep (keyNumber e.key.userKey) offset (offset + 40 * (blk.length - 1)) segments := by
  obtain ⟨front, back, segments, hfront, hback, hsegments, rfl⟩ := trainBlock_eq_ok trained
  obtain ⟨hcount, hsixteen⟩ := segmentsFrom_spec hsegments
  rw [length_blockContents_of_fixed fixed] at small
  rw [length_blockPoints] at hcount
  obtain ⟨init, rfl⟩ := List.getLast?_eq_some_iff.mp last
  have hinit : (blockContents init).length = 40 * init.length :=
    length_blockContents_of_fixed fun d hd => fixed d (List.mem_append_left _ hd)
  rw [List.length_append, List.length_singleton] at small hcount
  have hfirst : front.y = offset := by
    have hmod : offset % 2 ^ 32 = offset := Nat.mod_eq_of_lt (by omega)
    cases init with
    | nil =>
        rw [List.nil_append, blockPoints, List.head?_cons] at hfront
        rw [← Option.some.inj hfront, hmod]
    | cons d init =>
        rw [List.cons_append, blockPoints, List.head?_cons] at hfront
        rw [← Option.some.inj hfront, hmod]
  have hlast : back = ⟨keyNumber e.key.userKey, offset + 40 * init.length⟩ := by
    rw [blockPoints_append, blockPoints, blockPoints, List.getLast?_concat, hinit,
      Nat.mod_eq_of_lt (by omega)] at hback
    exact (Option.some.inj hback).symm
  refine ⟨segments, hsegments, hsixteen, ?_, ?_⟩
  · simp only [linearParamsSize, modelBlockSize]
    omega
  · rw [hfirst, hlast, List.length_append, List.length_singleton, Nat.add_sub_cancel]

/-- **`FindByModel` finds the first block whose last key is not below the key**, and makes a window
of the predictions of its segments. -/
theorem searchModel_train (predict : Predictor) (key : ℕ) {u : Bytes} {pre post : List (List (Entry Bytes))}
    {offset : ℕ} {model : Bytes}
    (trained : LazyGreedyPLRTrainer.train seg (tablePoints offset (pre ++ blk :: post)) = .ok model)
    (nonempty : ∀ b ∈ pre ++ blk :: post, b ≠ [])
    (fixed : ∀ b ∈ pre ++ blk :: post, ∀ e ∈ b, FixedLength e)
    (small : offset + (dataBytes crc32c (pre ++ blk :: post)).length < 2 ^ 32)
    (below : ∀ b ∈ pre, ∀ d ∈ b, d.key.userKey < u) (last : blk.getLast? = some e)
    (reaches : u ≤ e.key.userKey) {rounds : ℕ} (enough : pre.length < rounds) :
    ∃ segments, segmentsFrom seg seg.clear false (blockPoints (offset + (dataBytes crc32c pre).length) blk)
        = .ok segments ∧ (∀ l ∈ segments, l.length = linearParamsSize) ∧
      searchModel predict key u rounds model = .ok (locate predict key segments.flatten segments.length
        (offset + (dataBytes crc32c pre).length)
        (offset + (dataBytes crc32c pre).length + 40 * (blk.length - 1))) := by
  induction pre generalizing offset model rounds with
  | nil =>
      obtain ⟨rounds, rfl⟩ := Nat.exists_eq_succ_of_ne_zero (Nat.ne_zero_of_lt enough)
      obtain ⟨rep, rest, hrep, -, rfl⟩ := train_cons_eq_ok trained
      rw [List.nil_append, dataBytes_cons, List.length_append, TableBuilder.length_rawBlock] at small
      obtain ⟨segments, hsegments, hsixteen, hfew, rfl⟩ := trainBlock_blockPoints last
        (fixed blk List.mem_cons_self) (by omega) hrep
      have hcontents := length_blockContents_of_fixed (fixed blk List.mem_cons_self)
      have hlast := (fixed blk List.mem_cons_self e (List.mem_of_getLast? last)).1
      refine ⟨segments, hsegments, hsixteen, ?_⟩
      rw [searchModel_blockRep predict key u rounds hsixteen hfew (by omega) (by omega), if_pos]
      · rfl
      · rw [fixedEncode_keyNumber hlast, ne_eq, strCompare_eq_gt]
        exact not_lt.mpr reaches
      · rw [Nat.cast_add, add_sub_cancel_left, Nat.cast_mul]
        exact Int.mul_tmod_right _ _
  | cons b pre ih =>
      obtain ⟨rounds, rfl⟩ := Nat.exists_eq_succ_of_ne_zero (Nat.ne_zero_of_lt enough)
      obtain ⟨rep, rest, hrep, hrest, rfl⟩ := train_cons_eq_ok trained
      have hne := nonempty b List.mem_cons_self
      have hlast := List.getLast?_eq_getLast_of_ne_nil hne
      rw [List.cons_append, dataBytes_cons, List.length_append, TableBuilder.length_rawBlock] at small
      obtain ⟨segments, -, hsixteen, hfew, rfl⟩ := trainBlock_blockPoints hlast
        (fixed b List.mem_cons_self) (by omega) hrep
      have hcontents := length_blockContents_of_fixed (fixed b List.mem_cons_self)
      have hend : offset + (dataBytes crc32c (b :: pre)).length
          = offset + ((blockContents b).length + kBlockTrailerSize) + (dataBytes crc32c pre).length := by
        rw [dataBytes_cons, List.length_append, TableBuilder.length_rawBlock]
        omega
      have hskip : strCompare u (fixedEncode 8 (byteswap (keyNumber (b.getLast hne).key.userKey))) = .gt := by
        rw [fixedEncode_keyNumber (fixed b List.mem_cons_self _ (List.getLast_mem hne)).1, strCompare_eq_gt]
        exact below b List.mem_cons_self _ (List.getLast_mem hne)
      rw [searchModel_blockRep predict key u rounds hsixteen hfew (by omega) (by omega),
        if_neg (not_not.mpr hskip), hend]
      · exact ih hrest (fun c hc => nonempty c (List.mem_cons_of_mem _ hc))
          (fun c hc => fixed c (List.mem_cons_of_mem _ hc)) (by omega)
          (fun c hc => below c (List.mem_cons_of_mem _ hc)) (Nat.lt_of_succ_lt_succ enough)
      · rw [Nat.cast_add, add_sub_cancel_left, Nat.cast_mul]
        exact Int.mul_tmod_right _ _

end Search

/-! ## Reading a table with a model block -/

section Read

variable {crc32c : Bytes → ℕ} {seg : Segment} {predict : Predictor} {filter model : Bytes}
  {blocks pre post : List (List (Entry Bytes))} {blk : List (Entry Bytes)}

theorem length_modelFile (crc32c : Bytes → ℕ) (blocks : List (List (Entry Bytes))) (filter model : Bytes) :
    (modelFile crc32c blocks filter model).length = (dataBytes crc32c blocks).length
      + (filter.length + kBlockTrailerSize) + (model.length + kBlockTrailerSize)
      + ((blockBytes (indexEntries 0 blocks)).length + kBlockTrailerSize) + Footer.kEncodedLength := by
  simp only [modelFile, List.length_append, TableBuilder.length_rawBlock, Footer.length_encode]

/-- A block lies in the file behind the blocks before it. -/
theorem exists_modelFile_eq (crc32c : Bytes → ℕ) (pre post : List (List (Entry Bytes)))
    (blk : List (Entry Bytes)) (filter model : Bytes) :
    ∃ rest, modelFile crc32c (pre ++ blk :: post) filter model
      = dataBytes crc32c pre ++ (blockContents blk ++ rest) := by
  refine ⟨?rest, ?file⟩
  case file =>
    simp only [modelFile, dataBytes_append, dataBytes_cons, TableBuilder.rawBlock, List.append_assoc]
    rfl

theorem readAt_modelFilter :
    readAt (modelFile crc32c blocks filter model) (dataBytes crc32c blocks).length filter.length
      = filter := by
  refine readAt_of_eq _ ?rest ?file rfl rfl
  case file =>
    simp only [modelFile, TableBuilder.rawBlock, List.append_assoc]
    rfl

theorem readAt_model :
    readAt (modelFile crc32c blocks filter model)
      ((dataBytes crc32c blocks).length + (filter.length + kBlockTrailerSize)) model.length = model := by
  refine readAt_of_eq (dataBytes crc32c blocks ++ TableBuilder.rawBlock crc32c filter) ?rest ?file
    (by simp) rfl
  case file =>
    simp only [modelFile, TableBuilder.rawBlock, List.append_assoc]
    rfl

theorem readAt_modelIndex :
    readAt (modelFile crc32c blocks filter model)
      ((dataBytes crc32c blocks).length + (filter.length + kBlockTrailerSize)
        + (model.length + kBlockTrailerSize))
      (blockBytes (indexEntries 0 blocks)).length = blockBytes (indexEntries 0 blocks) := by
  refine readAt_of_eq (dataBytes crc32c blocks ++ TableBuilder.rawBlock crc32c filter
    ++ TableBuilder.rawBlock crc32c model) ?rest ?file
    (by simp only [List.length_append, TableBuilder.length_rawBlock]) rfl
  case file =>
    simp only [modelFile, TableBuilder.rawBlock, List.append_assoc]
    rfl

/-- The reader finds the handles. -/
theorem decode_modelFooter (small : (modelFile crc32c blocks filter model).length < 2 ^ 64) :
    Footer.decode (readAt (modelFile crc32c blocks filter model)
      ((modelFile crc32c blocks filter model).length - Footer.kEncodedLength) Footer.kEncodedLength)
      = .ok (modelFooter crc32c blocks filter model) := by
  have hfits : (modelFooter crc32c blocks filter model).Fits := by
    rw [length_modelFile] at small
    simp only [Footer.Fits, modelFooter, List.mem_cons, List.not_mem_nil, or_false, forall_eq_or_imp,
      forall_eq]
    omega
  have hread : readAt (modelFile crc32c blocks filter model)
      ((modelFile crc32c blocks filter model).length - Footer.kEncodedLength) Footer.kEncodedLength
      = (modelFooter crc32c blocks filter model).encode := by
    refine readAt_of_eq (dataBytes crc32c blocks ++ TableBuilder.rawBlock crc32c filter
      ++ TableBuilder.rawBlock crc32c model
      ++ TableBuilder.rawBlock crc32c (blockBytes (indexEntries 0 blocks))) [] ?_ ?_ ?_
    · rw [List.append_nil]
      rfl
    · rw [length_modelFile, Nat.add_sub_cancel]
      simp only [List.length_append, TableBuilder.length_rawBlock]
    · rw [Footer.length_encode]
  rw [hread, Footer.decode_encode hfits]

/-- For every entry of a table some segment of the model of its block predicts its offset in the
file with an error of at most eighty. -/
def Predicts (crc32c : Bytes → ℕ) (seg : Segment) (predict : Predictor)
    (blocks : List (List (Entry Bytes))) : Prop :=
  ∀ pre blk post, blocks = pre ++ blk :: post → ∀ segments,
    segmentsFrom seg seg.clear false (blockPoints (dataBytes crc32c pre).length blk) = .ok segments →
    ∀ before e behind, blk = before ++ e :: behind → ∃ l ∈ segments,
      |(predict l (keyNumber e.key.userKey)).toInt
        - ((dataBytes crc32c pre).length + (blockContents before).length : ℕ)| ≤ 80

/-- A prediction has 32 bits with a sign, so that the offsets fit the 32 bits of the trainer. -/
theorem Predicts.small (predicts : Predicts crc32c seg predict blocks)
    (trained : LazyGreedyPLRTrainer.train seg (tablePoints 0 blocks) = .ok model)
    (nonempty : ∀ b ∈ blocks, b ≠ []) (fixed : ∀ b ∈ blocks, ∀ e ∈ b, FixedLength e) :
    (dataBytes crc32c blocks).length < 2 ^ 32 := by
  rcases List.eq_nil_or_concat blocks with rfl | ⟨pre, blk, rfl⟩
  · exact Nat.two_pow_pos 32
  · rw [List.concat_eq_append] at *
    have hmem : blk ∈ pre ++ [blk] := List.mem_append_right _ (List.mem_singleton_self _)
    rw [tablePoints_append crc32c, Nat.zero_add] at trained
    obtain ⟨rest, hrest⟩ := train_append_eq_ok trained
    obtain ⟨rep, -, hrep, -, -⟩ := train_cons_eq_ok hrest
    obtain ⟨-, -, segments, -, -, hsegments, -⟩ := trainBlock_eq_ok hrep
    have hsplit := List.dropLast_concat_getLast (nonempty blk hmem)
    obtain ⟨l, -, hnear⟩ := predicts pre blk [] rfl segments hsegments _ _ [] hsplit.symm
    have hlt := Int32.toInt_lt (predict l (keyNumber (blk.getLast (nonempty blk hmem)).key.userKey))
    have hlow := (abs_le.mp hnear).1
    have hbefore : (blockContents blk.dropLast).length = 40 * (blk.length - 1) := by
      rw [length_blockContents_of_fixed fun d hd => fixed blk hmem d (List.dropLast_subset _ hd),
        List.length_dropLast]
    have hall := length_blockContents_of_fixed (fixed blk hmem)
    have hpos := List.length_pos_iff.mpr (nonempty blk hmem)
    rw [hbefore] at hlow
    rw [dataBytes_append, List.length_append, dataBytes_cons, List.length_append,
      TableBuilder.length_rawBlock, hall, dataBytes_nil, List.length_nil, kBlockTrailerSize]
    omega

theorem readAt_append {a b rest : Bytes} {offset n : ℕ} (offset_eq : offset = a.length) (le : b.length ≤ n) :
    readAt (a ++ (b ++ rest)) offset n = b ++ rest.take (n - b.length) := by
  rw [readAt, offset_eq, List.drop_left, List.take_append, List.take_of_length_le le]

/-- The location of a block in which some segment predicts the offset of an entry. -/
theorem locate_covers {key start n last : ℕ} {segments : List Bytes}
    (sixteen : ∀ l ∈ segments, l.length = linearParamsSize) (le : n ≤ last)
    (near : ∃ l ∈ segments, |(predict l key).toInt - (start + 40 * n : ℕ)| ≤ 80) :
    ∃ j ≤ n, (locate predict key segments.flatten segments.length start (start + 40 * last)).1
        = start + 40 * j ∧
      start + 40 * n + 40
        ≤ (locate predict key segments.flatten segments.length start (start + 40 * last)).2 := by
  obtain ⟨l, hl, hnear⟩ := near
  obtain ⟨j, hfirst, hle, hreach⟩ := @window_covers (segments.map fun l => (predict l key).toInt) start
    (start + 40 * last : ℕ) (start + 40 * n : ℕ) (by omega) (by omega) (by omega) (by omega)
    ⟨_, List.mem_map_of_mem hl, hnear⟩
  refine ⟨j, by omega, ?_, ?_⟩
  · rw [locate, linearParams_flatten sixteen]
    dsimp only
    rw [hfirst]
    omega
  · rw [locate, linearParams_flatten sixteen]
    dsimp only
    omega

/-- What is read from an entry of a block on, up to behind a later one. -/
theorem exists_readAt_window (crc32c : Bytes → ℕ) (pre post : List (List (Entry Bytes))) (filter model : Bytes)
    {before behind : List (Entry Bytes)} {e : Entry Bytes} (split : blk = before ++ e :: behind)
    (fixed : ∀ d ∈ blk, FixedLength d) {j n : ℕ} (le : j ≤ before.length)
    (enough : 40 * (before.length - j) + 40 ≤ n) :
    ∃ tail, readAt (modelFile crc32c (pre ++ blk :: post) filter model)
      ((dataBytes crc32c pre).length + 40 * j) n = blockContents (before.drop j ++ [e]) ++ tail := by
  obtain ⟨rest, hfile⟩ := exists_modelFile_eq crc32c pre post blk filter model
  have hblk : blk = before.take j ++ ((before.drop j ++ [e]) ++ behind) := by
    rw [split, List.append_assoc, ← List.append_assoc (before.take j), List.take_append_drop]
    rfl
  have hbytes : modelFile crc32c (pre ++ blk :: post) filter model
      = (dataBytes crc32c pre ++ blockContents (before.take j))
        ++ (blockContents (before.drop j ++ [e]) ++ (blockContents behind ++ rest)) := by
    rw [hfile]
    conv_lhs => rw [hblk, blockContents_append, blockContents_append (before.drop j ++ [e])]
    simp only [List.append_assoc]
  have hmem : ∀ d ∈ before.take j ++ (before.drop j ++ [e]), FixedLength d := by
    intro d hd
    refine fixed d ?_
    rw [hblk, ← List.append_assoc]
    exact List.mem_append_left _ hd
  have hskip : (blockContents (before.take j)).length = 40 * j := by
    rw [length_blockContents_of_fixed fun d hd => hmem d (List.mem_append_left _ hd), List.length_take,
      Nat.min_eq_left le]
  have hread : (blockContents (before.drop j ++ [e])).length = 40 * (before.length - j) + 40 := by
    rw [length_blockContents_of_fixed fun d hd => hmem d (List.mem_append_right _ hd), List.length_append,
      List.length_drop, List.length_singleton]
    omega
  refine ⟨(blockContents behind ++ rest).take (n - (blockContents (before.drop j ++ [e])).length), ?_⟩
  rw [hbytes]
  exact readAt_append (by rw [List.length_append, hskip]) (by rw [hread]; exact enough)

/-- **The model path** finds the newest version of every stored key. -/
theorem readByModel_eq_lookup (predicts : Predicts crc32c seg predict blocks)
    (trained : LazyGreedyPLRTrainer.train seg (tablePoints 0 blocks) = .ok model)
    (nonempty : ∀ b ∈ blocks, b ≠ []) (sorted : StrictlySorted blocks.flatten)
    (fixed : ∀ b ∈ blocks, ∀ e ∈ b, FixedLength e) {q : ℕ} (q_le : q ≤ kMaxSequenceNumber)
    (newer : ∀ e ∈ blocks.flatten, e.key.seq < q) {u : Bytes}
    (stored : ∃ e ∈ blocks.flatten, e.key.userKey = u) (info : VLogEntryInfo) :
    readByModel predict (modelFile crc32c blocks filter model) (modelFooter crc32c blocks filter model)
      (queryKey q u) info = tableAnswer info (lookup blocks.flatten u) := by
  have hsmall := predicts.small trained nonempty fixed
  have hsizes : ∀ e ∈ blocks.flatten, e.key.userKey.length + 32 < 2 ^ 32 := by
    intro e he
    obtain ⟨b, hb, he⟩ := List.mem_flatten.mp he
    rw [(fixed b hb e he).1]
    norm_num
  -- the block that the index names for the key, if any, holds the only candidates
  rcases filterInIndex_indexEntries crc32c nonempty sorted hsizes q_le newer u (hsmall.trans (by decide)) with
    ⟨-, hnone⟩ | ⟨pre, blk, post, last, rfl, hpre, hlast, hle, hlookup, -⟩
  · obtain ⟨e, he, hu⟩ := stored
    exact absurd hu (lookup_eq_none.mp hnone e he)
  · have hmem : blk ∈ pre ++ blk :: post := List.mem_append_right _ List.mem_cons_self
    have hflat : ∀ d ∈ blk, d ∈ (pre ++ blk :: post).flatten := fun d hd => List.mem_flatten_of_mem hmem hd
    obtain ⟨e, he⟩ : ∃ e, lookup blk u = some e := by
      obtain ⟨d, hd, hu⟩ := stored
      rw [← Option.ne_none_iff_exists', ← hlookup]
      exact fun hnone => lookup_eq_none.mp hnone d hd hu
    have hu := lookup_userKey he
    obtain ⟨-, before, behind, hsplit, hbefore⟩ := List.find?_eq_some_iff_append.mp he
    have hfixed := fixed blk hmem
    -- the entries before the one that is found, in its block and in those before, are lower
    have hlower : ∀ d ∈ before, d.key.userKey < u := by
      intro d hd
      have hblk := (List.pairwise_flatten.mp sorted).1 blk hmem
      rw [hsplit] at hblk
      have hlt := (List.pairwise_append.mp hblk).2.2 d hd e List.mem_cons_self
      have hne : d.key.userKey ≠ u := by simpa using hbefore d hd
      exact lt_of_le_of_ne (hu ▸ InternalKey.userKey_le_of_le hlt.le) hne
    have hbelow : ∀ b ∈ pre, ∀ d ∈ b, d.key.userKey < u := by
      intro b hb d hd
      have hd' : d ∈ pre.flatten := List.mem_flatten_of_mem hb hd
      refine not_le.mp fun hge => absurd (hpre d hd') (not_lt.mpr ?_)
      exact (queryKey_le_iff (newer d (by rw [List.flatten_append]; exact List.mem_append_left _ hd'))).mpr hge
    have hreaches : u ≤ last.key.userKey :=
      (queryKey_le_iff (newer last (hflat last (List.mem_of_getLast? hlast)))).mp hle
    have henough : pre.length < model.length := by
      have hcount := length_le_train trained
      rw [length_tablePoints, List.length_append, List.length_cons] at hcount
      omega
    -- the search of the model ends at the segments of this block
    obtain ⟨segments, hsegments, hsixteen, hsearch⟩ := searchModel_train predict (keyNumber u) trained
      nonempty fixed (by rwa [Nat.zero_add]) hbelow hlast hreaches henough
    rw [Nat.zero_add] at hsegments hsearch
    have hpos : (blockContents before).length = 40 * before.length :=
      length_blockContents_of_fixed fun d hd => hfixed d (hsplit ▸ List.mem_append_left _ hd)
    -- the prediction is near the entry, so the window that is read covers it
    obtain ⟨l, hl, hnear⟩ := predicts pre blk post rfl segments hsegments before e behind hsplit
    rw [hu, hpos] at hnear
    have hcount : before.length ≤ blk.length - 1 := by
      rw [hsplit, List.length_append, List.length_cons]
      omega
    obtain ⟨j, hj, hfirst, hreach⟩ := locate_covers hsixteen hcount ⟨l, hl, hnear⟩
    set location := locate predict (keyNumber u) segments.flatten segments.length
      (dataBytes crc32c pre).length ((dataBytes crc32c pre).length + 40 * (blk.length - 1))
    have hu8 : u.length = 8 := by
      rw [← hu]
      exact (hfixed e (lookup_mem he)).1
    have hwidth : 40 * (before.length - j) + 40 ≤ location.2 - location.1 + blobSize := by
      rw [hfirst, blobSize]
      omega
    obtain ⟨tail, htail⟩ := exists_readAt_window crc32c pre post filter model hsplit hfixed hj hwidth
    rw [← hfirst] at htail
    -- the bytes of the window start at an entry and reach past the one that is found
    have hpath : readByModel predict (modelFile crc32c (pre ++ blk :: post) filter model)
        (modelFooter crc32c (pre ++ blk :: post) filter model) (queryKey q u) info
        = findInBlock (readAt (modelFile crc32c (pre ++ blk :: post) filter model) location.1
          (location.2 - location.1 + blobSize)) (queryKey q u) info := by
      rw [readByModel]
      simp only [modelFooter, readAt_model, findByModel, Outcome.ok_bind, queryKey_userKey, hsearch,
        decodeFixed64BigEnd_encode (k := queryKey q u) hu8]
    have hsub : ∀ d ∈ before.drop j ++ [e], d ∈ blk := by
      intro d hd
      rw [hsplit]
      rcases List.mem_append.mp hd with hd | hd
      · exact List.mem_append_left _ (List.mem_of_mem_drop hd)
      · rw [List.mem_singleton.mp hd]
        exact List.mem_append_right _ List.mem_cons_self
    rw [hpath, htail, hlookup, he]
    -- the walk of the window skips the lower entries and stops at the key
    refine findInBlock_append ⟨fun d hd => ?_, fun d hd => ?_⟩
      (fun d hd => hlower d (List.mem_of_mem_drop hd)) hu (fun d hd => ?_) tail info
    · obtain ⟨hkey, hvalue⟩ := hfixed d (hsub d hd)
      rw [EntryFits, Entry.toBlock, InternalKey.length_encode, hkey, hvalue]
      norm_num
    · exact tag_lt_of_newer q_le (newer d (hflat d (hsub d hd)))
    · simpa using (newer d (hflat d (hsub d hd))).le

/-- **The index path** looks up the key. -/
theorem readByIndex_eq_lookup (small : (dataBytes crc32c blocks).length < 2 ^ 32)
    (nonempty : ∀ b ∈ blocks, b ≠ []) (sorted : StrictlySorted blocks.flatten)
    (fixed : ∀ b ∈ blocks, ∀ e ∈ b, FixedLength e) {q : ℕ} (q_le : q ≤ kMaxSequenceNumber)
    (newer : ∀ e ∈ blocks.flatten, e.key.seq < q) (u : Bytes) (info : VLogEntryInfo) :
    readByIndex (modelFile crc32c blocks filter model) (modelFooter crc32c blocks filter model)
      (queryKey q u) info = tableAnswer info (lookup blocks.flatten u) := by
  have hfixed : ∀ e ∈ blocks.flatten, FixedLength e := by
    intro e he
    obtain ⟨b, hb, he⟩ := List.mem_flatten.mp he
    exact fixed b hb e he
  rw [readByIndex]
  simp only [modelFooter, readAt_modelIndex]
  refine searchIndex_eq_lookup nonempty sorted (fun e he => ?_) (fun e he => ?_) q_le newer
    (small.trans (by decide)) ?_ u info
  · rw [(hfixed e he).1]
    norm_num
  · rw [EntryFits, Entry.toBlock, InternalKey.length_encode, (hfixed e he).1, (hfixed e he).2]
    norm_num
  · rintro pre blk post rfl
    obtain ⟨rest, hfile⟩ := exists_modelFile_eq crc32c pre post blk filter model
    exact readAt_of_eq _ _ hfile rfl rfl

end Read

namespace ModelBuilder

variable {crc32c : Bytes → ℕ} {seg : Segment} {calls : List BuilderCall}

/-- The layout of a table with a model block, for any calls of `Add` and `Flush`. -/
theorem file_layout {file : Bytes} (plain : ∀ c ∈ calls, c.Plain)
    (ne : calls.flatMap BuilderCall.entries ≠ [])
    (fixed : ∀ e ∈ calls.flatMap BuilderCall.entries, FixedLength e)
    (built : ModelBuilder.file crc32c seg calls = .ok file) :
    ∃ filter model, filter.length = bloomSize ∧
      (∀ e ∈ calls.flatMap BuilderCall.entries, e.key.userKey.length < 2 ^ 32 →
        keyMayMatch e.key.userKey filter = true) ∧
      LazyGreedyPLRTrainer.train seg (tablePoints 0 (BuilderCall.blocks [] calls)) = .ok model ∧
      file = modelFile crc32c (BuilderCall.blocks [] calls) filter model := by
  obtain ⟨b, bs, cur, hrun, hbuilds, heq⟩ := (builds_new crc32c).run plain fun e he => (fixed e he).1
  rw [List.nil_append] at heq
  have hflat : bs.flatten ++ cur = calls.flatMap BuilderCall.entries := by
    have hcongr := congrArg List.flatten heq
    rw [BuilderCall.flatten_blocks, List.nil_append] at hcongr
    rw [← hcongr]
    by_cases hcur : cur = []
    · simp [hcur]
    · simp [hcur]
  have hfinish : b.finish crc32c seg = .ok file := by
    rw [ModelBuilder.file, hrun] at built
    exact built
  have hlayout := hbuilds.finish (by rwa [hflat]) hfinish
  rwa [heq, hflat] at hlayout

/-- Where training succeeds the table is finished. -/
theorem file_isOk (plain : ∀ c ∈ calls, c.Plain)
    (fixed : ∀ e ∈ calls.flatMap BuilderCall.entries, FixedLength e)
    {model : Bytes} (trained : LazyGreedyPLRTrainer.train seg (tablePoints 0 (BuilderCall.blocks [] calls))
      = .ok model) : ∃ file, ModelBuilder.file crc32c seg calls = .ok file := by
  obtain ⟨b, bs, cur, hrun, hbuilds, heq⟩ := (builds_new crc32c).run plain fun e he => (fixed e he).1
  have htrainers := hbuilds.flush.trainers
  rw [List.nil_append] at heq
  rw [heq] at htrainers
  simp only [List.isEmpty_nil, if_true, List.append_nil] at htrainers
  rw [← htrainers] at trained
  rw [ModelBuilder.file, hrun, Outcome.ok_bind, ModelBuilder.finish]
  simp only [trained, Outcome.ok_bind]
  exact ⟨_, rfl⟩

end ModelBuilder

/-- **The model leads to what the index leads to.**  For a table with a model block, whatever its
segments are and whatever they predict: if for every entry some segment of its block predicts its
offset with an error of at most eighty, then for every stored key and every sequence number above
those stored, `ReadOne` takes the branch with the model, and returns what the branch without would
return. -/
theorem readByModel_eq_readByIndex (crc32c : Bytes → ℕ) (seg : Segment) (predict : Predictor)
    {calls : List BuilderCall} (plain : ∀ c ∈ calls, c.Plain)
    (sorted : StrictlySorted (calls.flatMap BuilderCall.entries))
    (fixed : ∀ e ∈ calls.flatMap BuilderCall.entries, FixedLength e) {file : Bytes}
    (built : ModelBuilder.file crc32c seg calls = .ok file) (small : file.length < 2 ^ 64)
    (predicts : Predicts crc32c seg predict (BuilderCall.blocks [] calls)) {q : ℕ}
    (q_le : q ≤ kMaxSequenceNumber) (newer : ∀ e ∈ calls.flatMap BuilderCall.entries, e.key.seq < q)
    {u : Bytes} (stored : ∃ e ∈ calls.flatMap BuilderCall.entries, e.key.userKey = u)
    (info : VLogEntryInfo) :
    ∃ footer, Footer.decode (readAt file (file.length - Footer.kEncodedLength) Footer.kEncodedLength)
        = .ok footer ∧
      readOne (findByModel predict) file file.length (queryKey q u).encode info
        = readByModel predict file footer (queryKey q u) info ∧
      readByModel predict file footer (queryKey q u) info
        = readByIndex file footer (queryKey q u) info := by
  have hne : calls.flatMap BuilderCall.entries ≠ [] := by
    obtain ⟨e, he, -⟩ := stored
    exact List.ne_nil_of_mem he
  obtain ⟨filter, model, -, hmatch, htrained, rfl⟩ := ModelBuilder.file_layout plain hne fixed built
  have hflat : (BuilderCall.blocks [] calls).flatten = calls.flatMap BuilderCall.entries := by
    rw [BuilderCall.flatten_blocks, List.nil_append]
  have hnonempty : ∀ b ∈ BuilderCall.blocks [] calls, b ≠ [] :=
    fun b hb => BuilderCall.nonempty_of_mem_blocks hb
  have hfixed : ∀ b ∈ BuilderCall.blocks [] calls, ∀ e ∈ b, FixedLength e :=
    fun b hb e he => fixed e (hflat ▸ List.mem_flatten_of_mem hb he)
  have hmay : keyMayMatch (queryKey q u).userKey filter = true := by
    obtain ⟨e, he, hu⟩ := stored
    rw [queryKey_userKey, ← hu]
    refine hmatch e he ?_
    rw [(fixed e he).1]
    norm_num
  have hmodel : (modelFooter crc32c (BuilderCall.blocks [] calls) filter model).modelHandle.size ≠ 0 := by
    have hcount := length_le_train htrained
    rw [length_tablePoints] at hcount
    have hpos : 0 < (BuilderCall.blocks [] calls).length := by
      rw [List.length_pos_iff]
      intro hnil
      rw [hnil] at hflat
      exact hne hflat.symm
    exact (hpos.trans_le hcount).ne'
  rw [← hflat] at sorted newer stored
  refine ⟨_, decode_modelFooter small, ?_, ?_⟩
  · have hlong : ¬ (modelFile crc32c (BuilderCall.blocks [] calls) filter model).length
        < Footer.kEncodedLength := by
      rw [length_modelFile]
      omega
    rw [readOne, if_neg hlong, decode_modelFooter small]
    simp only [Outcome.ok_bind, InternalKey.decode_encode _ (queryKey_tag_lt q_le u), Outcome.ofOption_some]
    rw [modelFooter, readAt_modelFilter, if_pos hmay]
    exact if_pos hmodel
  · rw [readByModel_eq_lookup predicts htrained hnonempty sorted hfixed q_le newer stored info,
      readByIndex_eq_lookup (predicts.small htrained hnonempty hfixed) hnonempty sorted hfixed q_le newer
        u info]

/-- A segment that stays at the offset zero: what `Segment` makes of one point with this offset. -/
def segmentAtZero : Segment where
  State := Unit
  clear := ()
  update _ _ _ := ((), true)
  encode _ := List.replicate 16 0
  length_encode _ := rfl

/-- Two versions of a key of eight bytes in one block, and another key in the next. -/
def threeFixed : List BuilderCall :=
  [.add (.ofWrite [0, 0, 0, 0, 0, 0, 0, 1] 5 .kTypeValue) VLogEntryInfo.zero.encode,
    .add (.ofWrite [0, 0, 0, 0, 0, 0, 0, 1] 3 .kTypeDeletion) VLogEntryInfo.zero.encode, .flush true,
    .add (.ofWrite [0, 0, 0, 0, 0, 0, 0, 2] 4 .kTypeValue) VLogEntryInfo.zero.encode]

/-- What is predicted for a key: forty bytes for every entry before it. -/
def fortyEach : Predictor := fun _ key => Int32.ofNat (40 * key)

/-- Its entries. -/
def threeEntries : List (Entry Bytes) := threeFixed.flatMap BuilderCall.entries

theorem predicts_threeFixed :
    Predicts (fun _ => 0) segmentAtZero fortyEach (BuilderCall.blocks [] threeFixed) := by
  intro pre blk post hsplit segments hsegments before e behind hblk
  have hblocks : BuilderCall.blocks [] threeFixed
      = [threeEntries.take 2, threeEntries.drop 2] := rfl
  rw [hblocks] at hsplit
  rcases pre with _ | ⟨x, _ | ⟨y, pre⟩⟩
  · obtain rfl := (List.cons.inj hsplit).1
    obtain rfl := Outcome.ok.inj hsegments
    refine ⟨_, List.mem_singleton_self _, ?_⟩
    rcases before with _ | ⟨x, _ | ⟨y, before⟩⟩
    · obtain rfl := (List.cons.inj hblk).1
      decide
    · obtain ⟨hx, hrest⟩ := List.cons.inj hblk
      obtain rfl := (List.cons.inj hrest).1
      rw [← hx]
      decide
    · have hlength : 2 = _ := congrArg List.length hblk
      simp only [List.length_append, List.length_cons] at hlength
      omega
  · obtain ⟨hx, hrest⟩ := List.cons.inj hsplit
    obtain rfl := (List.cons.inj hrest).1
    rw [← hx] at hsegments ⊢
    obtain rfl := Outcome.ok.inj hsegments
    refine ⟨_, List.mem_singleton_self _, ?_⟩
    rcases before with _ | ⟨x, before⟩
    · obtain rfl := (List.cons.inj hblk).1
      decide
    · have hlength : 1 = _ := congrArg List.length hblk
      simp only [List.length_append, List.length_cons] at hlength
      omega
  · have hlength : 2 = _ := congrArg List.length hsplit
    simp only [List.length_append, List.length_cons] at hlength
    omega

/-- A table with two blocks, and its model. -/
theorem readByModel_eq_readByIndex_three :
    ∃ file footer, ModelBuilder.file (fun _ => 0) segmentAtZero threeFixed = .ok file ∧
      Footer.decode (readAt file (file.length - Footer.kEncodedLength) Footer.kEncodedLength) = .ok footer ∧
      readOne (findByModel fortyEach) file file.length (queryKey 9 [0, 0, 0, 0, 0, 0, 0, 2]).encode .zero
        = readByModel fortyEach file footer (queryKey 9 [0, 0, 0, 0, 0, 0, 0, 2]) .zero ∧
      readByModel fortyEach file footer (queryKey 9 [0, 0, 0, 0, 0, 0, 0, 2]) .zero
        = readByIndex file footer (queryKey 9 [0, 0, 0, 0, 0, 0, 0, 2]) .zero := by
  have hplain : ∀ c ∈ threeFixed, c.Plain := by simp [threeFixed, BuilderCall.Plain]
  have hfixed : ∀ e ∈ threeFixed.flatMap BuilderCall.entries, FixedLength e := by
    simp [threeFixed, BuilderCall.entries, FixedLength]
  obtain ⟨file, hfile⟩ := @ModelBuilder.file_isOk (fun _ => 0) segmentAtZero threeFixed hplain hfixed _ rfl
  obtain ⟨filter, model, hfilter, -, hmodel, hlayout⟩ := ModelBuilder.file_layout hplain
    (by simp [threeFixed, BuilderCall.entries]) hfixed hfile
  have hsmall : file.length < 2 ^ 64 := by
    obtain rfl := Outcome.ok.inj ((rfl : LazyGreedyPLRTrainer.train segmentAtZero
      (tablePoints 0 (BuilderCall.blocks [] threeFixed)) = .ok _).symm.trans hmodel)
    rw [hlayout, length_modelFile, hfilter]
    decide +kernel
  obtain ⟨footer, hfooter, hread, heq⟩ := readByModel_eq_readByIndex (fun _ => 0) segmentAtZero
    fortyEach hplain (by simp only [StrictlySorted]; decide) hfixed hfile hsmall predicts_threeFixed
    (q := 9) (by decide) (by decide) (u := [0, 0, 0, 0, 0, 0, 0, 2])
    ⟨⟨.ofWrite [0, 0, 0, 0, 0, 0, 0, 2] 4 .kTypeValue, VLogEntryInfo.zero.encode⟩, by decide, rfl⟩ .zero
  exact ⟨file, footer, hfile, hfooter, hread, heq⟩

end Lsmkv
