import Lsmkv.Entries

/-!
# Blocks, handles and the footer

The byte format of tables and value logs (`src/include/block_format.h` and
`BlockBuilder` of `src/include/builder.h`).

A block is a sequence of entries `key size | value size | key | value` with the
sizes in four bytes each.  All loops over a block have one shape — take one entry
off with `ParserBlock`, refuse entries shorter than their header, then decide
whether to stop — and `scanBlock` is that shape, with the decision as an argument.
`scanBlock_blockBytes` reduces a loop over the bytes of a block to a recursion over
its entries, so no later argument is about bytes.

A function that can fail returns an `Outcome`: a value, a status other than
`kOk`, or `fault` for what the source leaves without a meaning — a failed
assertion or an access outside a buffer.
-/

namespace Lsmkv

open ByteCode

/-! ## Outcomes -/

/-- The outcome of a fallible function: a value with status `kOk`, another
status, or no defined behaviour at all. -/
inductive Outcome (α : Type) where
  | ok (a : α)
  | fail (c : Code)
  | fault
  deriving DecidableEq, Repr

namespace Outcome

variable {α β : Type}

instance : Monad Outcome where
  pure := ok
  bind
    | ok a, f => f a
    | fail c, _ => fail c
    | fault, _ => fault

@[simp] theorem pure_eq (a : α) : (pure a : Outcome α) = ok a := rfl

@[simp] theorem ok_bind (a : α) (f : α → Outcome β) : (ok a >>= f) = f a := rfl

@[simp] theorem fail_bind (c : Code) (f : α → Outcome β) :
    ((fail c : Outcome α) >>= f) = fail c := rfl

@[simp] theorem fault_bind (f : α → Outcome β) : ((fault : Outcome α) >>= f) = fault := rfl

instance : LawfulMonad Outcome :=
  LawfulMonad.mk' Outcome (fun x => by cases x <;> rfl) (fun _ _ => rfl)
    (fun x _ _ => by cases x <;> rfl)

/-- A sequence succeeds exactly when both parts do. -/
theorem bind_eq_ok {x : Outcome α} {f : α → Outcome β} {b : β} :
    (x >>= f) = ok b ↔ ∃ a, x = ok a ∧ f a = ok b := by
  cases x <;> simp

/-- A checked read or a checked assertion: `none` is a fault. -/
def ofOption : Option α → Outcome α
  | some a => ok a
  | none => fault

@[simp] theorem ofOption_some (a : α) : ofOption (some a) = ok a := rfl

@[simp] theorem ofOption_none : ofOption (none : Option α) = fault := rfl

/-- A checked read does not fail with a status: the failure comes from what follows. -/
theorem ofOption_bind_eq_fail {x : Option α} {f : α → Outcome β} {c : Code} :
    (ofOption x >>= f) = fail c ↔ ∃ a, x = some a ∧ f a = fail c := by
  cases x <;> simp

end Outcome

/-! ## Entries and blocks -/

/-- `BlockBuilder::Add`: the bytes one entry adds to a block. -/
def entryBytes (e : Bytes × Bytes) : Bytes :=
  fixedEncode 4 e.1.length ++ fixedEncode 4 e.2.length ++ e.1 ++ e.2

/-- The contents of a block built from the given entries. -/
def blockBytes (es : List (Bytes × Bytes)) : Bytes := (es.map entryBytes).flatten

/-- An entry whose size fits the 32-bit arithmetic of `ParserBlock`. -/
def EntryFits (e : Bytes × Bytes) : Prop := e.1.length + e.2.length + 8 < 2 ^ 32

/-- `ParserBlock(&block, &key)`: the first entry of the block and what follows it.
The header is read without a check of its own, and the sizes are added in 32
bits. -/
def parserBlock (block : Bytes) : Outcome (Bytes × Bytes) :=
  if block.isEmpty then .fail .kCorruption
  else do
    let keySize ← Outcome.ofOption (fixedDecode 4 block)
    let valueSize ← Outcome.ofOption (fixedDecode 4 (block.drop 4))
    let sz := (keySize + valueSize + 8) % 2 ^ 32
    if block.length < sz then .fail .kCorruption
    else .ok (block.take sz, block.drop sz)

/-- The loop over the entries of a block: parse one entry, refuse it when it is
shorter than a header, and stop where `decideEntry` says so.  `done` is the result
at the end of the block.  The number bounds the rounds; every round consumes at
least a header, so the length of the block is enough. -/
def scanBlock {α : Type} (decideEntry : Bytes → Outcome (Option α)) (done : Outcome α) :
    ℕ → Bytes → Outcome α
  | 0, input => if input.isEmpty then done else .fault
  | rounds + 1, input =>
      if input.isEmpty then done
      else do
        let (blockEntry, rest) ← parserBlock input
        if blockEntry.length < 8 then .fail .kCorruption
        else
          match ← decideEntry blockEntry with
          | some a => .ok a
          | none => scanBlock decideEntry done rounds rest

/-- The same loop over the entries themselves. -/
def scanEntries {α : Type} (decideEntry : Bytes × Bytes → Outcome (Option α))
    (done : Outcome α) : List (Bytes × Bytes) → Outcome α
  | [] => done
  | e :: es => do
      match ← decideEntry e with
      | some a => .ok a
      | none => scanEntries decideEntry done es

/-- The key of an entry: `Slice(block_entry.data() + 8, key_size)`. -/
def entryKey (blockEntry : Bytes) : Outcome Bytes := do
  let keySize ← Outcome.ofOption (fixedDecode 4 blockEntry)
  .ok ((blockEntry.drop 8).take keySize)

/-- The value of an entry: what `remove_prefix(key_size + 8)` leaves of it. -/
def entryValue (blockEntry : Bytes) : Outcome Bytes := do
  let keySize ← Outcome.ofOption (fixedDecode 4 blockEntry)
  .ok (blockEntry.drop (keySize + 8))

@[simp] theorem length_entryBytes (e : Bytes × Bytes) :
    (entryBytes e).length = e.1.length + e.2.length + 8 := by
  simp [entryBytes]
  omega

theorem fixedDecode_key_size (e : Bytes × Bytes) (rest : Bytes) :
    fixedDecode 4 (entryBytes e ++ rest) = some (e.1.length % 2 ^ 32) := by
  simp [entryBytes]

theorem fixedDecode_value_size (e : Bytes × Bytes) (rest : Bytes) :
    fixedDecode 4 ((entryBytes e ++ rest).drop 4) = some (e.2.length % 2 ^ 32) := by
  have hdrop : (entryBytes e ++ rest).drop 4
      = fixedEncode 4 e.2.length ++ (e.1 ++ e.2 ++ rest) := by
    simp only [entryBytes, List.append_assoc]
    exact List.drop_left' (by simp)
  simp [hdrop]

/-- `ParserBlock` takes back exactly the entry that `BlockBuilder::Add` wrote. -/
theorem parserBlock_entryBytes {e : Bytes × Bytes} (fits : EntryFits e) (rest : Bytes) :
    parserBlock (entryBytes e ++ rest) = .ok (entryBytes e, rest) := by
  simp only [EntryFits] at fits
  have hempty : (entryBytes e ++ rest).isEmpty = false := by simp [entryBytes, fixedEncode]
  have hkey : e.1.length % 2 ^ 32 = e.1.length := Nat.mod_eq_of_lt (by omega)
  have hval : e.2.length % 2 ^ 32 = e.2.length := Nat.mod_eq_of_lt (by omega)
  have hsz : (e.1.length + e.2.length + 8) % 2 ^ 32 = (entryBytes e).length := by
    rw [length_entryBytes, Nat.mod_eq_of_lt fits]
  have hlen : ¬ (entryBytes e ++ rest).length < (entryBytes e).length := by simp
  rw [parserBlock, hempty, if_neg Bool.false_ne_true, fixedDecode_key_size,
    fixedDecode_value_size]
  simp only [Outcome.ofOption_some, Outcome.ok_bind, hkey, hval, hsz]
  rw [if_neg hlen, List.take_left, List.drop_left]

theorem entryKey_entryBytes {e : Bytes × Bytes} (fits : EntryFits e) :
    entryKey (entryBytes e) = .ok e.1 := by
  simp only [EntryFits] at fits
  have hkey := fixedDecode_key_size e []
  rw [List.append_nil, Nat.mod_eq_of_lt (by omega)] at hkey
  have hdrop : (entryBytes e).drop 8 = e.1 ++ e.2 := by
    simp only [entryBytes, List.append_assoc]
    rw [← List.append_assoc]
    exact List.drop_left' (by simp)
  rw [entryKey, hkey]
  simp [hdrop]

theorem entryValue_entryBytes {e : Bytes × Bytes} (fits : EntryFits e) :
    entryValue (entryBytes e) = .ok e.2 := by
  simp only [EntryFits] at fits
  have hkey := fixedDecode_key_size e []
  rw [List.append_nil, Nat.mod_eq_of_lt (by omega)] at hkey
  have hdrop : (entryBytes e).drop (e.1.length + 8) = e.2 :=
    List.drop_left' (by simp; omega)
  rw [entryValue, hkey]
  simp [hdrop]

@[simp] theorem blockBytes_nil : blockBytes [] = [] := rfl

@[simp] theorem blockBytes_cons (e : Bytes × Bytes) (es : List (Bytes × Bytes)) :
    blockBytes (e :: es) = entryBytes e ++ blockBytes es := rfl

@[simp] theorem blockBytes_append (es fs : List (Bytes × Bytes)) :
    blockBytes (es ++ fs) = blockBytes es ++ blockBytes fs := by
  simp [blockBytes]

theorem entryBytes_ne_nil (e : Bytes × Bytes) : entryBytes e ≠ [] := by
  intro h
  have := congrArg List.length h
  simp at this

theorem blockBytes_eq_nil {es : List (Bytes × Bytes)} : blockBytes es = [] ↔ es = [] := by
  cases es with
  | nil => simp
  | cons e es => simp [entryBytes_ne_nil]

/-- The size of a block bounds the number of its entries. -/
theorem length_le_blockBytes (es : List (Bytes × Bytes)) :
    es.length ≤ (blockBytes es).length := by
  induction es with
  | nil => simp
  | cons e es ih =>
      simp
      omega

/-- Every entry of a block of fewer than `2 ^ 32` bytes fits. -/
theorem fits_of_mem_blockBytes {es : List (Bytes × Bytes)} {e : Bytes × Bytes} (mem : e ∈ es)
    (small : (blockBytes es).length < 2 ^ 32) : EntryFits e := by
  induction es with
  | nil => simp at mem
  | cons f es ih =>
      simp only [blockBytes_cons, List.length_append, length_entryBytes] at small
      rcases List.mem_cons.mp mem with rfl | mem
      · simp only [EntryFits]
        omega
      · exact ih mem (by omega)

/-- One round of the loop, whatever follows the entry. -/
theorem scanBlock_entryBytes {α : Type} (decideBytes : Bytes → Outcome (Option α)) (done : Outcome α)
    (rounds : ℕ) {e : Bytes × Bytes} (fits : EntryFits e) (rest : Bytes) :
    scanBlock decideBytes done (rounds + 1) (entryBytes e ++ rest) = (do
      match ← decideBytes (entryBytes e) with
      | some a => .ok a
      | none => scanBlock decideBytes done rounds rest) := by
  have hempty : (entryBytes e ++ rest).isEmpty = false := by
    simp [entryBytes_ne_nil]
  have hshort : ¬ (entryBytes e).length < 8 := by simp
  rw [scanBlock, hempty, if_neg Bool.false_ne_true, parserBlock_entryBytes fits]
  simp only [Outcome.ok_bind, if_neg hshort]

/-- **A loop over the bytes of a block is a recursion over its entries.** -/
theorem scanBlock_blockBytes {α : Type} {decideBytes : Bytes → Outcome (Option α)}
    {decideEntry : Bytes × Bytes → Outcome (Option α)} {done : Outcome α}
    {es : List (Bytes × Bytes)} (fits : ∀ e ∈ es, EntryFits e)
    (agree : ∀ e ∈ es, decideBytes (entryBytes e) = decideEntry e)
    {rounds : ℕ} (enough : es.length ≤ rounds) :
    scanBlock decideBytes done rounds (blockBytes es) = scanEntries decideEntry done es := by
  induction es generalizing rounds with
  | nil => cases rounds <;> rfl
  | cons e es ih =>
      obtain ⟨rounds, rfl⟩ : ∃ r, rounds = r + 1 := ⟨rounds - 1, by simp at enough; omega⟩
      rw [blockBytes_cons, scanBlock_entryBytes _ _ _ (fits e List.mem_cons_self), scanEntries,
        ← agree e List.mem_cons_self, ih (fun f hf => fits f (List.mem_cons_of_mem _ hf))
        (fun f hf => agree f (List.mem_cons_of_mem _ hf)) (by simpa using enough)]

/-! ## Handles -/

/-- `BlockEntryInfo`: offset and size of a block in its file. -/
structure BlockEntryInfo where
  offset : ℕ
  size : ℕ
  deriving DecidableEq, Repr

namespace BlockEntryInfo

/-- The sixteen bytes of the structure. -/
def encode (h : BlockEntryInfo) : Bytes := fixedEncode 8 h.offset ++ fixedEncode 8 h.size

/-- `BlockEntryInfo::Decode`; a source shorter than sixteen bytes fails its
assertion. -/
def decode (src : Bytes) : Outcome BlockEntryInfo := do
  let offset ← Outcome.ofOption (fixedDecode 8 src)
  let size ← Outcome.ofOption (fixedDecode 8 (src.drop 8))
  .ok ⟨offset, size⟩

@[simp] theorem length_encode (h : BlockEntryInfo) : h.encode.length = 16 := by
  simp [encode]

theorem decode_encode_append {h : BlockEntryInfo} (offset_lt : h.offset < 2 ^ 64)
    (size_lt : h.size < 2 ^ 64) (rest : Bytes) : decode (h.encode ++ rest) = .ok h := by
  have hoff : h.offset % 256 ^ 8 = h.offset := Nat.mod_eq_of_lt (by simpa using offset_lt)
  have hsize : h.size % 256 ^ 8 = h.size := Nat.mod_eq_of_lt (by simpa using size_lt)
  have hdrop : (h.encode ++ rest).drop 8 = fixedEncode 8 h.size ++ rest := by
    simp only [encode, List.append_assoc]
    exact List.drop_left' (by simp)
  rw [decode, hdrop, encode, List.append_assoc, fixedDecode_fixedEncode_append,
    fixedDecode_fixedEncode_append, hoff, hsize]
  rfl

end BlockEntryInfo

/-- `VLogEntryInfo`: where a value lies in the value log. -/
@[ext] structure VLogEntryInfo where
  offset : ℕ
  fileNo : ℕ
  length : ℕ
  deriving DecidableEq, Repr

namespace VLogEntryInfo

/-- The sixteen bytes of the structure. -/
def encode (i : VLogEntryInfo) : Bytes :=
  fixedEncode 8 i.offset ++ fixedEncode 4 i.fileNo ++ fixedEncode 4 i.length

/-- `VLogEntryInfo::Decode`: exactly sixteen bytes, or `kCorruption`. -/
def decode (src : Bytes) : Outcome VLogEntryInfo :=
  if src.length ≠ 16 then .fail .kCorruption
  else do
    let offset ← Outcome.ofOption (fixedDecode 8 src)
    let fileNo ← Outcome.ofOption (fixedDecode 4 (src.drop 8))
    let length ← Outcome.ofOption (fixedDecode 4 (src.drop 12))
    .ok ⟨offset, fileNo, length⟩

/-- The value-initialised structure `VLogEntryInfo{}`. -/
def zero : VLogEntryInfo := ⟨0, 0, 0⟩

/-- A location whose fields fit the widths of the structure. -/
def Fits (i : VLogEntryInfo) : Prop :=
  i.offset < 2 ^ 64 ∧ i.fileNo < 2 ^ 32 ∧ i.length < 2 ^ 32

@[simp] theorem length_encode (i : VLogEntryInfo) : i.encode.length = 16 := by
  simp [encode]

theorem decode_encode {i : VLogEntryInfo} (fits : i.Fits) : decode i.encode = .ok i := by
  obtain ⟨hoff, hfile, hlen⟩ := fits
  have hdrop8 : i.encode.drop 8 = fixedEncode 4 i.fileNo ++ fixedEncode 4 i.length := by
    simp only [encode, List.append_assoc]
    exact List.drop_left' (by simp)
  have hdrop12 : i.encode.drop 12 = fixedEncode 4 i.length := by
    simp only [encode]
    exact List.drop_left' (by simp)
  rw [decode, if_neg (by simp), hdrop8, hdrop12, encode, List.append_assoc,
    fixedDecode_fixedEncode_append, fixedDecode_fixedEncode_append, fixedDecode_fixedEncode,
    Nat.mod_eq_of_lt (by simpa using hoff), Nat.mod_eq_of_lt (by simpa using hfile),
    Nat.mod_eq_of_lt (by simpa using hlen)]
  rfl

/-- Sixteen bytes always decode. -/
theorem decode_isOk {src : Bytes} (h : src.length = 16) : ∃ i, decode src = .ok i := by
  obtain ⟨offset, hoff⟩ := fixedDecode_isSome (w := 8) (b := src) (by omega)
  obtain ⟨fileNo, hfile⟩ := fixedDecode_isSome (w := 4) (b := src.drop 8) (by simp; omega)
  obtain ⟨length, hlen⟩ := fixedDecode_isSome (w := 4) (b := src.drop 12) (by simp; omega)
  exact ⟨⟨offset, fileNo, length⟩, by simp [decode, h, hoff, hfile, hlen]⟩

end VLogEntryInfo

/-! ## The footer -/

/-- `kTableMagicNumber`. -/
def kTableMagicNumber : ℕ := 0xdb4775248b80fb57

/-- The footer of a table: the handles of the filter, index and model blocks. -/
structure Footer where
  metaindexHandle : BlockEntryInfo
  indexHandle : BlockEntryInfo
  modelHandle : BlockEntryInfo
  deriving DecidableEq, Repr

namespace Footer

/-- `Footer::kEncodedLength`. -/
def kEncodedLength : ℕ := 56

/-- `Footer::Encode`.  The low half of the magic number is masked with
`0xfffffff` on both sides. -/
def encode (f : Footer) : Bytes :=
  f.metaindexHandle.encode ++ f.indexHandle.encode ++ f.modelHandle.encode
    ++ fixedEncode 4 (kTableMagicNumber % 2 ^ 28) ++ fixedEncode 4 (kTableMagicNumber / 2 ^ 32)

/-- `Footer::Decode`. -/
def decode (input : Bytes) : Outcome Footer := do
  let metaindexHandle ← BlockEntryInfo.decode input
  let indexHandle ← BlockEntryInfo.decode (input.drop 16)
  let modelHandle ← BlockEntryInfo.decode (input.drop 32)
  let magicLo ← Outcome.ofOption (fixedDecode 4 (input.drop 48))
  if magicLo ≠ kTableMagicNumber % 2 ^ 28 then .fail .kCorruption
  else do
    let magicHi ← Outcome.ofOption (fixedDecode 4 (input.drop 52))
    if magicHi ≠ kTableMagicNumber / 2 ^ 32 then .fail .kCorruption
    else .ok ⟨metaindexHandle, indexHandle, modelHandle⟩

@[simp] theorem length_encode (f : Footer) : f.encode.length = kEncodedLength := by
  simp [encode, kEncodedLength]

/-- All six numbers of the footer fit their eight bytes. -/
def Fits (f : Footer) : Prop :=
  ∀ h ∈ [f.metaindexHandle, f.indexHandle, f.modelHandle], h.offset < 2 ^ 64 ∧ h.size < 2 ^ 64

theorem decode_encode {f : Footer} (fits : f.Fits) : decode f.encode = .ok f := by
  obtain ⟨hmeta, hindex, hmodel⟩ : _ ∧ _ ∧ _ := by simpa [Fits] using fits
  have hdrop16 : f.encode.drop 16 = f.indexHandle.encode ++ (f.modelHandle.encode
      ++ fixedEncode 4 (kTableMagicNumber % 2 ^ 28)
      ++ fixedEncode 4 (kTableMagicNumber / 2 ^ 32)) := by
    simp only [encode, List.append_assoc]
    exact List.drop_left' (by simp)
  have hdrop32 : f.encode.drop 32 = f.modelHandle.encode
      ++ (fixedEncode 4 (kTableMagicNumber % 2 ^ 28)
      ++ fixedEncode 4 (kTableMagicNumber / 2 ^ 32)) := by
    rw [show 32 = 16 + 16 from rfl, ← List.drop_drop, hdrop16]
    simp only [List.append_assoc]
    exact List.drop_left' (by simp)
  have hdrop48 : f.encode.drop 48 = fixedEncode 4 (kTableMagicNumber % 2 ^ 28)
      ++ fixedEncode 4 (kTableMagicNumber / 2 ^ 32) := by
    rw [show 48 = 32 + 16 from rfl, ← List.drop_drop, hdrop32]
    exact List.drop_left' (by simp)
  have hdrop52 : f.encode.drop 52 = fixedEncode 4 (kTableMagicNumber / 2 ^ 32) := by
    rw [show 52 = 48 + 4 from rfl, ← List.drop_drop, hdrop48]
    exact List.drop_left' (by simp)
  have hfirst : BlockEntryInfo.decode f.encode = .ok f.metaindexHandle := by
    rw [encode]
    simp only [List.append_assoc]
    exact BlockEntryInfo.decode_encode_append hmeta.1 hmeta.2 _
  rw [decode, hfirst, hdrop16, hdrop32, hdrop48, hdrop52,
    BlockEntryInfo.decode_encode_append hindex.1 hindex.2,
    BlockEntryInfo.decode_encode_append hmodel.1 hmodel.2, fixedDecode_fixedEncode_append,
    fixedDecode_fixedEncode]
  norm_num [kTableMagicNumber]

end Footer

end Lsmkv
