import Lsmkv.VLog

/-!
# Builders on files that fail

`TableBuilder` and `VLogBuilder` again (`src/include/builder.h`, `src/table_builder.cpp`,
`src/include/vlog_builder.h`), now with what a failure of the file changes: `status_`, which is
set by each operation on the file and, once it is not OK, keeps the builder from its file; the
pointer `file_`, which is null when the file could not be created; and the destructor, which
finishes a builder that was not finished.  An access through a null pointer is a fault.

The file layer is a parameter.  `FileLayer` has the operations of `WritableFile`, any of which may
fail at any time.  What a builder does to its file is a sequence of operations that stops at the
first failure (`FileLayer.Calls`), and the status afterwards says whether there was one
(`TableBuilder.Acts`).  In the part that the two models share the builders are those of
`Lsmkv.TableBuilder` and `Lsmkv.VLog`.
-/

namespace Lsmkv.Fallible

open ByteCode Files

/-! ## Files -/

/-- The operations of `WritableFile` on the file with a handle, and the creation of the value log
with a number.  Each says whether it succeeded. -/
structure FileLayer (σ : Type) where
  createVlog : ℕ → σ → Option ℕ × σ
  append : ℕ → Bytes → σ → Bool × σ
  flush : ℕ → σ → Bool × σ
  sync : ℕ → σ → Bool × σ
  close : ℕ → σ → Bool × σ

/-- **Operations on one file, up to the first that fails.**  The answer is that of the last. -/
inductive FileLayer.Calls {σ : Type} (fs : FileLayer σ) (h : ℕ) (w : σ) : Bool → σ → Prop
  | start : Calls fs h w true w
  | append {w' : σ} (before : Calls fs h w true w') (data : Bytes) :
      Calls fs h w (fs.append h data w').1 (fs.append h data w').2
  | flush {w' : σ} (before : Calls fs h w true w') :
      Calls fs h w (fs.flush h w').1 (fs.flush h w').2

namespace FileLayer.Calls

variable {σ : Type} {fs : FileLayer σ} {h : ℕ} {w w' w'' : σ} {ok : Bool}

theorem trans (first : fs.Calls h w true w') (second : fs.Calls h w' ok w'') :
    fs.Calls h w ok w'' := by
  induction second with
  | start => exact first
  | append _ data ih => exact .append ih data
  | flush _ ih => exact .flush ih

/-- What every operation preserves holds after the calls. -/
theorem preserves {P : σ → Prop} (append : ∀ data w, P w → P (fs.append h data w).2)
    (flush : ∀ w, P w → P (fs.flush h w).2) (calls : fs.Calls h w ok w') (init : P w) : P w' := by
  induction calls with
  | start => exact init
  | append _ data ih => exact append data _ ih
  | flush _ ih => exact flush _ ih

end FileLayer.Calls

/-! ## The table builder -/

/-- A `TableBuilder` with its file, its status and whether it is finished.  The field `file` of the
underlying builder is what was appended with success. -/
structure TableBuilder extends Lsmkv.TableBuilder where
  handle : Option ℕ
  status : Bool
  closed : Bool

namespace TableBuilder

/-- A builder on a file, or on none. -/
def new (handle : Option ℕ) : TableBuilder :=
  { Lsmkv.TableBuilder.new with handle := handle, status := true, closed := false }

section Operations

variable {σ : Type} (fs : FileLayer σ) (crc32c : Bytes → ℕ)

/-- `WriteRawBlock(raw, handle)`. -/
def writeRawBlock (t : TableBuilder) (raw : Bytes) (w : σ) :
    Outcome (BlockEntryInfo × TableBuilder × σ) := do
  let h ← Outcome.ofOption t.handle
  let (entry, core) := t.toTableBuilder.writeRawBlock crc32c raw
  let (ok, w) := fs.append h raw w
  if ok then
    let (ok, w) := fs.append h (fixedEncode kBlockTrailerSize (crc32c raw)) w
    if ok then .ok (entry, { t with toTableBuilder := core }, w)
    else .ok (entry, { t with status := false }, w)
  else .ok (entry, { t with status := false }, w)

/-- `WriteBlock(block, handle)` on the contents of the block: an empty one is not written, and its
handle stays zero. -/
def writeBlock (t : TableBuilder) (raw : Bytes) (w : σ) :
    Outcome (BlockEntryInfo × TableBuilder × σ) :=
  if raw.isEmpty then .ok (⟨0, 0⟩, t, w) else t.writeRawBlock fs crc32c raw w

/-- The part of `Flush` behind its guards: the data block, which is not empty, and the flush of
the file. -/
def writeDataBlock (t : TableBuilder) (nextIndexEntry : Bool) (w : σ) :
    Outcome (TableBuilder × σ) := do
  let (entry, t, w) ← t.writeRawBlock fs crc32c t.dataBlock w
  let t := { t with dataBlock := [], dataBlockEntry := entry }
  if t.status then
    let h ← Outcome.ofOption t.handle
    let (ok, w) := fs.flush h w
    .ok ({ t with needNextIndexEntry := nextIndexEntry, status := ok }, w)
  else .ok (t, w)

/-- `Flush(next_index_entry)`. -/
def flushWith (t : TableBuilder) (nextIndexEntry : Bool) (w : σ) : Outcome (TableBuilder × σ) :=
  if t.status then
    let t := { t with filterBlock := t.filterBlock.flush }
    if t.dataBlock.isEmpty then .ok (t, w) else t.writeDataBlock fs crc32c nextIndexEntry w
  else .ok (t, w)

/-- The end of `Add`: a data block that has reached its size is flushed. -/
def flushIfFull (t : TableBuilder) (w : σ) : Outcome (TableBuilder × σ) :=
  if blockSize ≤ t.dataBlock.length then t.flushWith fs crc32c true w else .ok (t, w)

/-- `Add(key, value)`, with its assertion. -/
def add (t : TableBuilder) (key : InternalKey) (value : Bytes) (w : σ) :
    Outcome (TableBuilder × σ) :=
  if t.closed then .fault
  else if t.status then
    let t := { t with toTableBuilder := t.toTableBuilder.addIndexEntry.appendEntry key value }
    t.flushIfFull fs crc32c w
  else .ok (t, w)

/-- `Add(key, value, info)`, with its assertion: offset and length of the record, which stay zero
when the builder returns at once. -/
def addInfo (t : TableBuilder) (key : InternalKey) (value : Bytes) (w : σ) :
    Outcome (ℕ × ℕ × TableBuilder × σ) :=
  if t.closed then .fault
  else if t.status then do
    let core := t.toTableBuilder.addIndexEntry
    let offset := core.offset + core.dataBlock.length
    let length := (value.length + key.encode.length + 8) % 2 ^ 32
    let added := core.appendEntry key value
    let lastKey := if blockSize ≤ added.dataBlock.length then key.encode else core.lastKey
    let t := { t with toTableBuilder := { added with lastKey := lastKey } }
    let (t, w) ← t.flushIfFull fs crc32c w
    .ok (offset, length, t, w)
  else .ok (0, 0, t, w)

/-- The end of `Finish`: the footer. -/
def writeFooter (t : TableBuilder) (filterBlockHandle indexBlockHandle : BlockEntryInfo) (w : σ) :
    Outcome (TableBuilder × σ) := do
  let h ← Outcome.ofOption t.handle
  let footer := (Footer.mk filterBlockHandle indexBlockHandle ⟨0, 0⟩).encode
  let (ok, w) := fs.append h footer w
  if ok then .ok ({ t with offset := t.offset + footer.length }, w)
  else .ok ({ t with status := false }, w)

/-- The part of `Finish` behind the filter block: the index block and the footer. -/
def writeIndex (t : TableBuilder) (filterBlockHandle : BlockEntryInfo) (w : σ) :
    Outcome (TableBuilder × σ) := do
  let t := { t with toTableBuilder := t.toTableBuilder.addIndexEntry }
  let (indexBlockHandle, t, w) ← t.writeBlock fs crc32c t.indexBlock w
  if t.status then t.writeFooter fs filterBlockHandle indexBlockHandle w else .ok (t, w)

/-- `Finish`; what it returns is the status of the builder afterwards. -/
def finish (t : TableBuilder) (w : σ) : Outcome (TableBuilder × σ) := do
  let (t, w) ← flushWith fs crc32c { t with closed := true } true w
  if t.status then
    let (filterBlockHandle, t, w) ← t.writeRawBlock fs crc32c t.filterBlock.finish w
    if t.status then t.writeIndex fs crc32c filterBlockHandle w else .ok (t, w)
  else .ok (t, w)

/-- `~TableBuilder`: a builder that was not finished is finished, whatever comes of it. -/
def destroy (t : TableBuilder) (w : σ) : Outcome (TableBuilder × σ) :=
  if t.closed then .ok (t, w) else t.finish fs crc32c w

end Operations

/-! ## What a builder does to its file -/

/-- **A builder works on its own file while its status is OK, and not at all otherwise.** -/
structure Acts {σ : Type} (fs : FileLayer σ) (t : TableBuilder) (w : σ) (t' : TableBuilder) (w' : σ) :
    Prop where
  handle : t'.handle = t.handle
  live : t.status = true → ∀ h, t.handle = some h → fs.Calls h w t'.status w'
  stuck : t.status = false → w' = w ∧ t'.status = false

section Acts

variable {σ : Type} {fs : FileLayer σ} {crc32c : Bytes → ℕ} {t t' t'' : TableBuilder} {w w' w'' : σ}
  {h : ℕ}

theorem Acts.trans (first : Acts fs t w t' w') (second : Acts fs t' w' t'' w'') :
    Acts fs t w t'' w'' := by
  refine ⟨second.handle.trans first.handle, fun live h hh => ?_, fun stuck => ?_⟩
  · have hcalls := first.live live h hh
    cases hstatus : t'.status with
    | true =>
        rw [hstatus] at hcalls
        exact hcalls.trans (second.live hstatus h (first.handle.trans hh))
    | false =>
        obtain ⟨rfl, hlast⟩ := second.stuck hstatus
        rw [hstatus] at hcalls
        rwa [hlast]
  · obtain ⟨rfl, hstuck⟩ := first.stuck stuck
    exact second.stuck hstuck

/-- A change of the builder alone. -/
theorem Acts.of_fields (handle : t'.handle = t.handle) (status : t'.status = t.status) :
    Acts fs t w t' w :=
  ⟨handle, fun live h _ => by rw [status, live]; exact .start, fun stuck => ⟨rfl, status.trans stuck⟩⟩

/-- The builder stays stuck, or it makes the calls. -/
theorem Acts.of_calls (handle : t.handle = some h) (same : t'.handle = t.handle)
    (live : t.status = true) (calls : fs.Calls h w t'.status w') : Acts fs t w t' w' := by
  refine ⟨same, fun _ h' hh' => ?_, fun stuck => absurd (live.symm.trans stuck) (by simp)⟩
  obtain rfl : h' = h := Option.some.inj (hh'.symm.trans handle)
  exact calls

variable (fs crc32c w)

theorem writeRawBlock_acts (handle : t.handle = some h) (live : t.status = true) (raw : Bytes) :
    ∃ entry t' w', t.writeRawBlock fs crc32c raw w = .ok (entry, t', w') ∧ Acts fs t w t' w' ∧
      t'.closed = t.closed := by
  let entry := (t.toTableBuilder.writeRawBlock crc32c raw).1
  let t' : TableBuilder := { t with toTableBuilder := (t.toTableBuilder.writeRawBlock crc32c raw).2 }
  let stuck : TableBuilder := { t with status := false }
  let w₁ := (fs.append h raw w).2
  let w₂ := (fs.append h (fixedEncode kBlockTrailerSize (crc32c raw)) w₁).2
  have hfirst : fs.Calls h w (fs.append h raw w).1 w₁ := .append .start raw
  by_cases hdata : (fs.append h raw w).1 = true
  · rw [hdata] at hfirst
    have hsecond : fs.Calls h w (fs.append h (fixedEncode kBlockTrailerSize (crc32c raw)) w₁).1 w₂ :=
      .append hfirst _
    by_cases htrailer : (fs.append h (fixedEncode kBlockTrailerSize (crc32c raw)) w₁).1 = true
    · rw [htrailer, ← show t'.status = true from live] at hsecond
      refine ⟨entry, t', w₂, ?_, .of_calls handle rfl live hsecond, rfl⟩
      simp [writeRawBlock, handle, hdata, htrailer, entry, t', w₁, w₂]
    · rw [Bool.eq_false_iff.mpr htrailer] at hsecond
      refine ⟨entry, stuck, w₂, ?_, .of_calls handle rfl live hsecond, rfl⟩
      simp [writeRawBlock, handle, hdata, htrailer, entry, stuck, w₁, w₂]
  · rw [Bool.eq_false_iff.mpr hdata] at hfirst
    refine ⟨entry, stuck, w₁, ?_, .of_calls handle rfl live hfirst, rfl⟩
    simp [writeRawBlock, handle, hdata, entry, stuck, w₁]

theorem writeBlock_acts (handle : t.handle = some h) (live : t.status = true) (raw : Bytes) :
    ∃ entry t' w', t.writeBlock fs crc32c raw w = .ok (entry, t', w') ∧ Acts fs t w t' w' ∧
      t'.closed = t.closed := by
  by_cases hempty : raw.isEmpty = true
  · exact ⟨⟨0, 0⟩, t, w, if_pos hempty, .of_fields rfl rfl, rfl⟩
  · rw [writeBlock, if_neg hempty]
    exact writeRawBlock_acts fs crc32c w handle live raw

theorem writeDataBlock_acts (handle : t.handle = some h) (live : t.status = true) (next : Bool) :
    ∃ t' w', t.writeDataBlock fs crc32c next w = .ok (t', w') ∧ Acts fs t w t' w' ∧
      t'.closed = t.closed := by
  obtain ⟨entry, t₁, w₁, hwrite, h₁, hclosed⟩ :=
    writeRawBlock_acts fs crc32c w handle live t.dataBlock
  let t₂ : TableBuilder := { t₁ with dataBlock := [], dataBlockEntry := entry }
  have h₂ : Acts fs t w t₂ w₁ := h₁.trans (.of_fields rfl rfl)
  have hhandle : t₁.handle = some h := h₁.handle.trans handle
  by_cases hwritten : t₁.status = true
  · let t₃ : TableBuilder := { t₂ with needNextIndexEntry := next, status := (fs.flush h w₁).1 }
    have h₃ : Acts fs t₂ w₁ t₃ (fs.flush h w₁).2 := .of_calls (t := t₂) hhandle rfl hwritten (.flush .start)
    refine ⟨t₃, (fs.flush h w₁).2, ?_, h₂.trans h₃, hclosed⟩
    simp [writeDataBlock, hwrite, hwritten, hhandle, t₃, t₂]
  · refine ⟨t₂, w₁, ?_, h₂, hclosed⟩
    simp [writeDataBlock, hwrite, hwritten, t₂]

theorem flushWith_acts (handle : t.handle = some h) (next : Bool) :
    ∃ t' w', t.flushWith fs crc32c next w = .ok (t', w') ∧ Acts fs t w t' w' ∧
      t'.closed = t.closed := by
  by_cases hlive : t.status = true
  · let t₁ : TableBuilder := { t with filterBlock := t.filterBlock.flush }
    have h₁ : Acts fs t w t₁ w := .of_fields rfl rfl
    rw [flushWith, if_pos hlive]
    by_cases hempty : t₁.dataBlock.isEmpty = true
    · exact ⟨t₁, w, if_pos hempty, h₁, rfl⟩
    · obtain ⟨t₂, w₂, hwrite, h₂, hclosed⟩ :=
        writeDataBlock_acts (t := t₁) fs crc32c w handle hlive next
      exact ⟨t₂, w₂, (if_neg hempty).trans hwrite, h₁.trans h₂, hclosed⟩
  · exact ⟨t, w, if_neg hlive, .of_fields rfl rfl, rfl⟩

theorem flushIfFull_acts (handle : t.handle = some h) :
    ∃ t' w', t.flushIfFull fs crc32c w = .ok (t', w') ∧ Acts fs t w t' w' ∧ t'.closed = t.closed := by
  by_cases hfull : blockSize ≤ t.dataBlock.length
  · rw [flushIfFull, if_pos hfull]
    exact flushWith_acts fs crc32c w handle true
  · exact ⟨t, w, if_neg hfull, .of_fields rfl rfl, rfl⟩

theorem add_acts (handle : t.handle = some h) (opened : t.closed = false) (key : InternalKey)
    (value : Bytes) :
    ∃ t' w', t.add fs crc32c key value w = .ok (t', w') ∧ Acts fs t w t' w' ∧ t'.closed = false := by
  rw [add, if_neg (by simp [opened])]
  by_cases hlive : t.status = true
  · let t₁ : TableBuilder :=
      { t with toTableBuilder := t.toTableBuilder.addIndexEntry.appendEntry key value }
    have h₁ : Acts fs t w t₁ w := .of_fields rfl rfl
    obtain ⟨t₂, w₂, hflush, h₂, hclosed⟩ := flushIfFull_acts (t := t₁) fs crc32c w handle
    exact ⟨t₂, w₂, (if_pos hlive).trans hflush, h₁.trans h₂, hclosed.trans opened⟩
  · exact ⟨t, w, if_neg hlive, .of_fields rfl rfl, opened⟩

theorem addInfo_acts (handle : t.handle = some h) (opened : t.closed = false) (key : InternalKey)
    (value : Bytes) :
    ∃ offset length t' w', t.addInfo fs crc32c key value w = .ok (offset, length, t', w') ∧
      Acts fs t w t' w' ∧ t'.closed = false := by
  rw [addInfo, if_neg (by simp [opened])]
  by_cases hlive : t.status = true
  · let added := t.toTableBuilder.addIndexEntry.appendEntry key value
    let lastKey := if blockSize ≤ added.dataBlock.length then key.encode
      else t.toTableBuilder.addIndexEntry.lastKey
    let t₁ : TableBuilder := { t with toTableBuilder := { added with lastKey := lastKey } }
    have h₁ : Acts fs t w t₁ w := .of_fields rfl rfl
    obtain ⟨t₂, w₂, hflush, h₂, hclosed⟩ := flushIfFull_acts (t := t₁) fs crc32c w handle
    let core := t.toTableBuilder.addIndexEntry
    refine ⟨core.offset + core.dataBlock.length, (value.length + key.encode.length + 8) % 2 ^ 32,
      t₂, w₂, (if_pos hlive).trans ?_, h₁.trans h₂, hclosed.trans opened⟩
    show (t₁.flushIfFull fs crc32c w >>= _) = _
    rw [hflush]
    rfl
  · exact ⟨0, 0, t, w, if_neg hlive, .of_fields rfl rfl, opened⟩

theorem writeFooter_acts (handle : t.handle = some h) (live : t.status = true)
    (filterBlockHandle indexBlockHandle : BlockEntryInfo) :
    ∃ t' w', t.writeFooter fs filterBlockHandle indexBlockHandle w = .ok (t', w') ∧
      Acts fs t w t' w' ∧ t'.closed = t.closed := by
  let footer := (Footer.mk filterBlockHandle indexBlockHandle ⟨0, 0⟩).encode
  have hcalls : fs.Calls h w (fs.append h footer w).1 (fs.append h footer w).2 := .append .start footer
  by_cases hok : (fs.append h footer w).1 = true
  · let t' : TableBuilder := { t with offset := t.offset + footer.length }
    rw [hok, ← show t'.status = true from live] at hcalls
    refine ⟨t', _, ?_, .of_calls handle rfl live hcalls, rfl⟩
    simp [writeFooter, handle, show (fs.append h _ w).1 = true from hok, t', footer]
  · let t' : TableBuilder := { t with status := false }
    rw [Bool.eq_false_iff.mpr hok] at hcalls
    refine ⟨t', _, ?_, .of_calls handle rfl live hcalls, rfl⟩
    simp [writeFooter, handle, show ¬ (fs.append h _ w).1 = true from hok, t', footer]

theorem writeIndex_acts (handle : t.handle = some h) (live : t.status = true)
    (filterBlockHandle : BlockEntryInfo) :
    ∃ t' w', t.writeIndex fs crc32c filterBlockHandle w = .ok (t', w') ∧ Acts fs t w t' w' ∧
      t'.closed = t.closed := by
  let t₁ : TableBuilder := { t with toTableBuilder := t.toTableBuilder.addIndexEntry }
  have h₁ : Acts fs t w t₁ w := .of_fields rfl rfl
  obtain ⟨entry, t₂, w₂, hwrite, h₂, hclosed⟩ :=
    writeBlock_acts (t := t₁) fs crc32c w handle live t₁.indexBlock
  have hindex : t.writeIndex fs crc32c filterBlockHandle w =
      if t₂.status then t₂.writeFooter fs filterBlockHandle entry w₂ else .ok (t₂, w₂) := by
    show (t₁.writeBlock fs crc32c t₁.indexBlock w >>= _) = _
    rw [hwrite]
    rfl
  by_cases hwritten : t₂.status = true
  · obtain ⟨t₃, w₃, hfooter, h₃, hclosed'⟩ :=
      writeFooter_acts fs w₂ (h₂.handle.trans handle) hwritten filterBlockHandle entry
    refine ⟨t₃, w₃, ?_, (h₁.trans h₂).trans h₃, hclosed'.trans hclosed⟩
    rw [hindex, if_pos hwritten, hfooter]
  · exact ⟨t₂, w₂, by rw [hindex, if_neg hwritten], h₁.trans h₂, hclosed⟩

/-- **`Finish` writes what the builder still has**, while its file takes it. -/
theorem finish_acts (handle : t.handle = some h) :
    ∃ t' w', t.finish fs crc32c w = .ok (t', w') ∧ Acts fs t w t' w' ∧ t'.closed = true := by
  let t₁ : TableBuilder := { t with closed := true }
  have h₁ : Acts fs t w t₁ w := .of_fields rfl rfl
  obtain ⟨t₂, w₂, hflush, h₂, hclosed⟩ := flushWith_acts (t := t₁) fs crc32c w handle true
  have hhandle : t₂.handle = some h := h₂.handle.trans handle
  by_cases hflushed : t₂.status = true
  · obtain ⟨entry, t₃, w₃, hfilter, h₃, hclosed₃⟩ :=
      writeRawBlock_acts fs crc32c w₂ hhandle hflushed t₂.filterBlock.finish
    by_cases hwritten : t₃.status = true
    · obtain ⟨t₄, w₄, hindex, h₄, hclosed₄⟩ :=
        writeIndex_acts fs crc32c w₃ (h₃.handle.trans hhandle) hwritten entry
      refine ⟨t₄, w₄, ?_, ((h₁.trans h₂).trans h₃).trans h₄, ?_⟩
      · simp [finish, t₁, hflush, hflushed, hfilter, hwritten, hindex]
      · rw [hclosed₄, hclosed₃, hclosed]
    · refine ⟨t₃, w₃, ?_, (h₁.trans h₂).trans h₃, ?_⟩
      · simp [finish, t₁, hflush, hflushed, hfilter, hwritten]
      · rw [hclosed₃, hclosed]
  · refine ⟨t₂, w₂, ?_, h₁.trans h₂, hclosed⟩
    simp [finish, t₁, hflush, hflushed]

theorem destroy_acts (handle : t.handle = some h) :
    ∃ t' w', t.destroy fs crc32c w = .ok (t', w') ∧ Acts fs t w t' w' := by
  by_cases hclosed : t.closed = true
  · exact ⟨t, w, if_pos hclosed, .of_fields rfl rfl⟩
  · obtain ⟨t', w', hfinish, hacts, -⟩ := finish_acts fs crc32c w handle
    exact ⟨t', w', (if_neg hclosed).trans hfinish, hacts⟩

end Acts

/-! ## A status that is OK -/

section Ok

variable {σ : Type} {fs : FileLayer σ} {crc32c : Bytes → ℕ} {w w' : σ} {t t' : TableBuilder}

theorem writeRawBlock_core {raw : Bytes} {entry : BlockEntryInfo}
    (h : t.writeRawBlock fs crc32c raw w = .ok (entry, t', w')) (ok : t'.status = true) :
    t.toTableBuilder.writeRawBlock crc32c raw = (entry, t'.toTableBuilder) := by
  obtain ⟨i, -, h⟩ := Outcome.bind_eq_ok.mp h
  simp only at h
  split at h
  · split at h
    · obtain ⟨rfl, rfl, -⟩ : _ ∧ _ ∧ _ := by simpa using h
      rfl
    · obtain ⟨-, rfl, -⟩ : _ ∧ _ ∧ _ := by simpa using h
      exact absurd ok (by simp)
  · obtain ⟨-, rfl, -⟩ : _ ∧ _ ∧ _ := by simpa using h
    exact absurd ok (by simp)

theorem writeDataBlock_core {next : Bool} (h : t.writeDataBlock fs crc32c next w = .ok (t', w'))
    (ok : t'.status = true) :
    t'.toTableBuilder = { (t.toTableBuilder.writeRawBlock crc32c t.dataBlock).2 with
      dataBlock := []
      dataBlockEntry := (t.toTableBuilder.writeRawBlock crc32c t.dataBlock).1
      needNextIndexEntry := next } := by
  obtain ⟨⟨entry, t₁, w₁⟩, hwrite, h⟩ := Outcome.bind_eq_ok.mp h
  simp only at h
  split at h
  · rename_i hwritten
    obtain ⟨i, -, h⟩ := Outcome.bind_eq_ok.mp h
    obtain ⟨rfl, -⟩ : _ ∧ _ := by simpa using h
    rw [writeRawBlock_core hwrite hwritten]
  · rename_i hstuck
    obtain ⟨rfl, -⟩ : _ ∧ _ := by simpa using h
    exact absurd ok hstuck

/-- **A flush whose status is OK** is the flush of a builder whose file does not fail. -/
theorem flushWith_core {next : Bool} (h : t.flushWith fs crc32c next w = .ok (t', w'))
    (ok : t'.status = true) :
    t'.toTableBuilder = t.toTableBuilder.flushWith crc32c next := by
  unfold flushWith at h
  split at h
  · simp only at h
    split at h
    · rename_i hempty
      obtain ⟨rfl, -⟩ : _ ∧ _ := by simpa using h
      rw [Lsmkv.TableBuilder.flushWith]
      exact (if_pos hempty).symm
    · rename_i hfull
      rw [writeDataBlock_core h ok, Lsmkv.TableBuilder.flushWith]
      exact (if_neg hfull).symm
  · rename_i hstuck
    obtain ⟨rfl, -⟩ : _ ∧ _ := by simpa using h
    exact absurd ok hstuck

theorem flushIfFull_core (h : t.flushIfFull fs crc32c w = .ok (t', w')) (ok : t'.status = true) :
    t'.toTableBuilder = if blockSize ≤ t.dataBlock.length then t.toTableBuilder.flush crc32c
      else t.toTableBuilder := by
  unfold flushIfFull at h
  split at h
  · rename_i hfull
    rw [if_pos hfull]
    exact flushWith_core h ok
  · rename_i hfull
    obtain ⟨rfl, -⟩ : _ ∧ _ := by simpa using h
    rw [if_neg hfull]

/-- **A record whose status is OK** was added as to a file that does not fail. -/
theorem addInfo_core {key : InternalKey} {value : Bytes} {offset length : ℕ}
    (h : t.addInfo fs crc32c key value w = .ok (offset, length, t', w')) (ok : t'.status = true) :
    (t'.toTableBuilder, offset, length) = t.toTableBuilder.addInfo crc32c key value := by
  unfold addInfo at h
  split at h
  · simp at h
  · split at h
    · obtain ⟨⟨t₁, w₁⟩, hflush, h⟩ := Outcome.bind_eq_ok.mp h
      simp only [Outcome.ok.injEq, Prod.mk.injEq] at h
      obtain ⟨rfl, rfl, rfl, -⟩ := h
      rw [flushIfFull_core hflush ok]
      by_cases hfull : blockSize
          ≤ (t.toTableBuilder.addIndexEntry.appendEntry key value).dataBlock.length
      · simp only [if_pos hfull, Lsmkv.TableBuilder.addInfo, Lsmkv.TableBuilder.setLastKey]
      · simp only [if_neg hfull, Lsmkv.TableBuilder.addInfo]
    · rename_i hstuck
      obtain ⟨-, -, rfl, -⟩ : _ ∧ _ ∧ _ ∧ _ := by simpa using h
      exact absurd ok hstuck

end Ok

/-! ## A builder without a file -/

section Null

variable {σ : Type} (fs : FileLayer σ) (crc32c : Bytes → ℕ) (w : σ) {t : TableBuilder}

theorem writeRawBlock_null (null : t.handle = none) (raw : Bytes) :
    t.writeRawBlock fs crc32c raw w = .fault := by
  simp [writeRawBlock, null]

theorem flushWith_null (null : t.handle = none) (next : Bool) :
    t.flushWith fs crc32c next w = .fault ∨
      ∃ t', t.flushWith fs crc32c next w = .ok (t', w) ∧ t'.handle = none ∧ t'.status = t.status ∧
        t'.closed = t.closed := by
  by_cases hlive : t.status = true
  · let t₁ : TableBuilder := { t with filterBlock := t.filterBlock.flush }
    rw [flushWith, if_pos hlive]
    by_cases hempty : t₁.dataBlock.isEmpty = true
    · exact .inr ⟨t₁, if_pos hempty, null, rfl, rfl⟩
    · refine .inl ((if_neg hempty).trans ?_)
      rw [writeDataBlock, writeRawBlock_null (t := t₁) fs crc32c w null]
      rfl
  · exact .inr ⟨t, if_neg hlive, null, rfl, rfl⟩

/-- An entry is taken as long as its block is not full. -/
theorem add_null (null : t.handle = none) (opened : t.closed = false) (key : InternalKey)
    (value : Bytes) :
    t.add fs crc32c key value w = .fault ∨
      ∃ t', t.add fs crc32c key value w = .ok (t', w) ∧ t'.handle = none ∧ t'.status = t.status ∧
        t'.closed = false := by
  rw [add, if_neg (by simp [opened])]
  by_cases hlive : t.status = true
  · let t₁ : TableBuilder :=
      { t with toTableBuilder := t.toTableBuilder.addIndexEntry.appendEntry key value }
    rw [if_pos hlive]
    show t₁.flushIfFull fs crc32c w = .fault ∨ ∃ t', t₁.flushIfFull fs crc32c w = .ok (t', w) ∧ _
    by_cases hfull : blockSize ≤ t₁.dataBlock.length
    · rw [flushIfFull, if_pos hfull]
      rcases flushWith_null (t := t₁) fs crc32c w null true with hfault | ⟨t', ht', hnull, hstatus, hopen⟩
      · exact .inl hfault
      · exact .inr ⟨t', ht', hnull, hstatus, hopen.trans opened⟩
    · exact .inr ⟨t₁, if_neg hfull, null, rfl, opened⟩
  · exact .inr ⟨t, if_neg hlive, null, rfl, opened⟩

/-- **A builder without a file cannot be finished**, be it by its destructor. -/
theorem finish_null (null : t.handle = none) (live : t.status = true) :
    t.finish fs crc32c w = .fault := by
  let t₁ : TableBuilder := { t with closed := true }
  show (t₁.flushWith fs crc32c true w >>= _) = _
  rcases flushWith_null (t := t₁) fs crc32c w null true with hfault | ⟨t', ht', hnull, hstatus, -⟩
  · rw [hfault]
    rfl
  · rw [ht', Outcome.ok_bind]
    show (if t'.status = true then _ else _) = _
    rw [if_pos (hstatus.trans live), writeRawBlock_null fs crc32c w hnull]
    rfl

end Null

end TableBuilder

/-! ## The builder of a value log -/

/-- A `VLogBuilder` with its file. -/
structure VLogBuilder where
  fileNo : ℕ
  offset : ℕ
  handle : Option ℕ
  builder : Option TableBuilder

namespace VLogBuilder

/-- A new builder, with no file open. -/
def new : VLogBuilder := ⟨0, 0, none, none⟩

section Operations

variable {σ : Type} (fs : FileLayer σ) (crc32c : Bytes → ℕ)

/-- `Open(file_no)`, of a builder with no file open. -/
def openFile (b : VLogBuilder) (fileNo : ℕ) (w : σ) : Bool × VLogBuilder × σ :=
  match fs.createVlog fileNo w with
  | (some h, w) => (true, ⟨fileNo, b.offset, some h, some (.new (some h))⟩, w)
  | (none, w) => (false, { b with fileNo := fileNo, handle := none }, w)

/-- `Full(value_sz)`; a null builder is dereferenced. -/
def full (b : VLogBuilder) (valueSz : ℕ) : Outcome Bool := do
  let t ← Outcome.ofOption b.builder
  let offset := t.approximateFileSize
  .ok (decide (kMaxVLogSize ≤ offset) ||
    (decide (kMaxVLogSize / 2 < offset) && decide (kMaxVLogSize / 2 < valueSz % 2 ^ 32)))

/-- `builder_.reset()`, and whether the operations of the destructor succeeded. -/
def resetBuilder (b : VLogBuilder) (w : σ) : Outcome (Bool × σ) :=
  match b.builder with
  | none => .ok (true, w)
  | some t => do
      let (t', w) ← t.destroy fs crc32c w
      .ok (!t.status || t'.status, w)

/-- `file_.reset()`: the destructor of a file closes it. -/
def resetFile (b : VLogBuilder) (w : σ) : Bool × σ :=
  match b.handle with
  | none => (true, w)
  | some h => fs.close h w

/-- `Close`.  It returns `Status::OK()` in any case; the answer here says whether everything that
it does succeeded. -/
def close (b : VLogBuilder) (w : σ) : Outcome (Bool × VLogBuilder × σ) := do
  let (finished, w) ← b.resetBuilder fs crc32c w
  let (closed, w) := b.resetFile fs w
  .ok (finished && closed, ⟨0, b.offset, none, none⟩, w)

/-- `Append(internal_key, value, info)`, with the status that it returns. -/
def append (b : VLogBuilder) (key : InternalKey) (value : Bytes) (w : σ) :
    Outcome (VLogEntryInfo × Bool × VLogBuilder × σ) := do
  let t ← Outcome.ofOption b.builder
  let (offset, length, t, w) ← t.addInfo fs crc32c key value w
  let used := b.offset + length
  if t.status then
    let nextIndex := decide (blockSize < used)
    let (t, w) ← TableBuilder.flushWith fs crc32c { t with lastKey := key.encode } nextIndex w
    .ok (⟨offset, b.fileNo, length⟩, t.status,
      { b with offset := if nextIndex then 0 else used, builder := some t }, w)
  else .ok (⟨offset, b.fileNo, length⟩, false, { b with offset := used, builder := some t }, w)

end Operations

/-- The builder has a file open under the handle. -/
structure IsOpen (b : VLogBuilder) (h : ℕ) (t : TableBuilder) : Prop where
  handle : b.handle = some h
  builder : b.builder = some t
  file : t.handle = some h
  opened : t.closed = false

section IsOpen

variable {σ : Type} (fs : FileLayer σ) (crc32c : Bytes → ℕ) (w : σ) {b : VLogBuilder} {h : ℕ}
  {t : TableBuilder}

/-- **An append leaves the log open**; its status is the status of the table builder. -/
theorem IsOpen.append_acts (isOpen : b.IsOpen h t) (key : InternalKey) (value : Bytes) :
    ∃ info b' t' w', b.append fs crc32c key value w = .ok (info, t'.status, b', w') ∧
      b'.IsOpen h t' ∧ b'.fileNo = b.fileNo ∧ TableBuilder.Acts fs t w t' w' := by
  obtain ⟨offset, length, t₁, w₁, hadd, h₁, hopen₁⟩ :=
    TableBuilder.addInfo_acts fs crc32c w isOpen.file isOpen.opened key value
  have hfile₁ : t₁.handle = some h := h₁.handle.trans isOpen.file
  let used := b.offset + length
  by_cases hadded : t₁.status = true
  · let t₂ : TableBuilder := { t₁ with lastKey := key.encode }
    let nextIndex := decide (blockSize < used)
    obtain ⟨t₃, w₃, hflush, h₃, hopen₃⟩ :=
      TableBuilder.flushWith_acts (t := t₂) fs crc32c w₁ hfile₁ nextIndex
    have h₂ : TableBuilder.Acts fs t₁ w₁ t₂ w₁ := .of_fields rfl rfl
    refine ⟨⟨offset, b.fileNo, length⟩,
      { b with offset := if nextIndex then 0 else used, builder := some t₃ }, t₃, w₃, ?_,
      ⟨isOpen.handle, rfl, h₃.handle.trans hfile₁, hopen₃.trans hopen₁⟩, rfl,
      (h₁.trans h₂).trans h₃⟩
    rw [append, isOpen.builder, Outcome.ofOption_some, Outcome.ok_bind, hadd, Outcome.ok_bind]
    show (if t₁.status = true then t₂.flushWith fs crc32c nextIndex w₁ >>= _ else _) = _
    rw [if_pos hadded, hflush]
    rfl
  · refine ⟨⟨offset, b.fileNo, length⟩, { b with offset := used, builder := some t₁ }, t₁, w₁, ?_,
      ⟨isOpen.handle, rfl, hfile₁, hopen₁⟩, rfl, h₁⟩
    simp [append, isOpen.builder, hadd, hadded, used]

/-- **`Close` leaves no file open**, also when it fails. -/
theorem IsOpen.close_acts (isOpen : b.IsOpen h t) :
    ∃ t' w', b.close fs crc32c w = .ok ((!t.status || t'.status) && (fs.close h w').1,
        ⟨0, b.offset, none, none⟩, (fs.close h w').2) ∧
      TableBuilder.Acts fs t w t' w' := by
  obtain ⟨t', w', hdestroy, hacts⟩ := TableBuilder.destroy_acts fs crc32c w isOpen.file
  refine ⟨t', w', ?_, hacts⟩
  simp [close, resetBuilder, resetFile, isOpen.builder, isOpen.handle, hdestroy]

end IsOpen

/-- The builder without its file and its status. -/
def core (b : VLogBuilder) (inode : ℕ) : Lsmkv.VLogBuilder :=
  ⟨b.fileNo, b.offset, inode, b.builder.map (·.toTableBuilder)⟩

theorem full_core (b : VLogBuilder) (inode valueSz : ℕ) :
    (b.core inode).full valueSz = b.full valueSz := by
  cases hb : b.builder with
  | none => simp [core, full, Lsmkv.VLogBuilder.full, hb]
  | some t => simp [core, full, Lsmkv.VLogBuilder.full, hb]

/-- **An append whose status is OK** is the append to a file that does not fail. -/
theorem append_core {σ : Type} {fs : FileLayer σ} {crc32c : Bytes → ℕ} {w w' : σ}
    {b b' : VLogBuilder} {key : InternalKey} {value : Bytes} {info : VLogEntryInfo}
    (h : b.append fs crc32c key value w = .ok (info, true, b', w')) (inode : ℕ) (d : VLogDir) :
    ∃ t', b'.builder = some t' ∧
      (b.core inode).append crc32c d key value = .ok (info, b'.core inode, d.write inode t'.file) := by
  obtain ⟨t, ht, h⟩ := Outcome.bind_eq_ok.mp h
  have ht : b.builder = some t := by
    cases hb : b.builder with
    | none => simp [hb] at ht
    | some t₀ => simpa [hb] using ht
  obtain ⟨⟨offset, length, t₁, w₁⟩, hadd, h⟩ := Outcome.bind_eq_ok.mp h
  simp only at h
  split at h
  · rename_i hadded
    obtain ⟨⟨t₂, w₂⟩, hflush, h⟩ := Outcome.bind_eq_ok.mp h
    simp only [Outcome.ok.injEq, Prod.mk.injEq] at h
    obtain ⟨rfl, hok, rfl, -⟩ := h
    have hcore := TableBuilder.addInfo_core hadd hadded
    have hlast := TableBuilder.flushWith_core hflush hok
    refine ⟨t₂, rfl, ?_⟩
    simp only [Lsmkv.VLogBuilder.append, core, ht, Option.map_some, Outcome.ofOption_some,
      Outcome.ok_bind, ← hcore, Lsmkv.TableBuilder.setLastKey, hlast]
  · simp at h

/-- After `Close` no file is open. -/
theorem eq_of_close {σ : Type} {fs : FileLayer σ} {crc32c : Bytes → ℕ} {w w' : σ} {b b' : VLogBuilder}
    {ok : Bool} (h : b.close fs crc32c w = .ok (ok, b', w')) : b' = ⟨0, b.offset, none, none⟩ := by
  obtain ⟨⟨finished, w₁⟩, -, h⟩ := Outcome.bind_eq_ok.mp h
  simp only [Outcome.ok.injEq, Prod.mk.injEq] at h
  exact h.2.1.symm

end VLogBuilder

end Lsmkv.Fallible
