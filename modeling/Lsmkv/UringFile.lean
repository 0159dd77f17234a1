import Lsmkv.Lib.FixedCode
import Lsmkv.Lib.Overwrite
import Mathlib.Logic.Relation

/-!
# Files written through a ring

Tables are written with `UringWritableFile` (`src/file.cpp`).  The file collects what is appended
in one of two chunks; a full chunk goes to the kernel as a write of the ring, and the file goes on
with the other one as soon as the last write of that one has completed.  What is left of a large
append goes to the kernel directly, and the append waits for it.

The kernel executes the requests of the ring in any order, each in full, at any time between its
submission and the wait that consumes its completion.  So the calls are relations between states
(`Appends`, `Flushes`, `Syncs`, `Closes`), with steps of the kernel (`Kernel`) wherever the file
does not hold the kernel off.  What the file relies on is in `Ring` and `Resting`: the two chunks
are told apart by their tags, a tag is in the ring at most once, and a chunk is filled only when
its tag is not.

Two things go wrong, and `UringContent` says exactly when.  The direct path moves the offset by
what was copied into the chunk, not by what was written directly, so the content of the file is
what was appended if and only if nothing follows such an append.  And the `fsync` of `Sync` is
not ordered behind the writes that are under way, so a `Sync` promises nothing about what was
appended before it.
-/

namespace Lsmkv

namespace UringFile

open ByteCode Overwrite Relation

/-- `kWritableFileBufferSize`. -/
def kWritableFileBufferSize : ℕ := 65536

/-- `kChunkSize`. -/
def kChunkSize : ℕ := kWritableFileBufferSize / 2

theorem kWritableFileBufferSize_eq : kWritableFileBufferSize = 65536 := rfl

theorem kChunkSize_eq : kChunkSize = 32768 := rfl

/-- `write_tag`. -/
inductive Tag
  /-- `kChunk1Tag` and `kChunk2Tag`. -/
  | chunk (second : Bool)
  | sync
  | large
  deriving DecidableEq

/-- Where the bytes of a write are: in a chunk, or with the caller of `Append`. -/
inductive Source
  | chunk (second : Bool)
  | caller (data : Bytes)

/-- A write of the ring.  `first` says which of the bytes that `Append` took are written: it is
the number of those before them. -/
structure Write where
  source : Source
  size : ℕ
  offset : ℕ
  first : ℕ

/-- A request of the ring. -/
inductive Request
  | write (w : Write)
  | fsync

/-- The `user_data` of a write. -/
def Write.tag (w : Write) : Tag :=
  match w.source with
  | .chunk c => .chunk c
  | .caller _ => .large

/-- The `user_data` of a request. -/
def Request.tag : Request → Tag
  | .write w => w.tag
  | .fsync => .sync

/-- What only the file's own calls change. -/
structure Buffer where
  /-- `fd_` is not negative. -/
  isOpen : Bool
  chunks : Bool → Bytes
  pos : ℕ
  offset : ℕ
  chunkPos : ℕ
  /-- How many bytes went to the ring. -/
  submitted : ℕ

/-- The chunk that is filled, `chunk_pos_ & 1`. -/
def Buffer.current (b : Buffer) : Bool := b.chunkPos % 2 == 1

/-- `MaskChunk`. -/
def maskChunk (n : ℕ) : Tag := .chunk (n % 2 == 1)

/-- The bytes of a write, as the kernel finds them. -/
def Write.data (w : Write) (b : Buffer) : Bytes :=
  (match w.source with
    | .chunk c => b.chunks c
    | .caller data => data).take w.size

/-- A file, its ring, and what the kernel made of it. -/
structure File extends Buffer where
  ready : Bool → Bool
  /-- The requests that are submitted and not executed. -/
  inFlight : List Request
  /-- The completions that are not consumed. -/
  cq : List Tag
  content : Bytes
  /-- The writes that are executed. -/
  finished : List Write
  /-- The writes that were executed when an `fsync` was executed. -/
  durable : List Write

/-- `UringWritableFile`, on an empty file. -/
def new : File where
  isOpen := true
  chunks := fun _ => List.replicate kChunkSize 0
  pos := 0
  offset := 0
  chunkPos := 0
  submitted := 0
  ready := fun _ => true
  inFlight := []
  cq := []
  content := []
  finished := []
  durable := []

/-! ## The kernel -/

/-- The effect of a request. -/
def File.perform (f : File) : Request → File
  | .write w =>
      { f with
        content := overwrite 0 f.content w.offset (w.data f.toBuffer)
        finished := f.finished ++ [w] }
  | .fsync => { f with durable := f.finished }

/-- The kernel executes one of the requests. -/
def Executes (f f' : File) : Prop :=
  ∃ before r after, f.inFlight = before ++ r :: after ∧
    f' = { f.perform r with inFlight := before ++ after, cq := f.cq ++ [r.tag] }

/-- The kernel executes some of the requests. -/
def Kernel (f f' : File) : Prop := ReflTransGen Executes f f'

/-! ## The calls -/

/-- The completions that are there are consumed, and their chunks are ready. -/
def File.consume (f : File) : File :=
  { f with cq := [], ready := fun c => f.ready c || decide (.chunk c ∈ f.cq) }

/-- `ProcessCompletions`: consume completions until one has the tag. -/
inductive Waits (tag : Tag) : File → File → Prop
  | found {f f₁ : File} (kernel : Kernel f f₁) (here : tag ∈ f₁.cq) : Waits tag f f₁.consume
  | again {f f₁ f' : File} (kernel : Kernel f f₁) (some : f₁.cq ≠ []) (not : tag ∉ f₁.cq)
      (rest : Waits tag f₁.consume f') : Waits tag f f'

/-- `SubmitIO`, where there is something to write. -/
def File.submitIo (f : File) : File :=
  { f with
    ready := Function.update f.ready f.current false
    inFlight := f.inFlight ++ [.write ⟨.chunk f.current, f.pos, f.offset, f.submitted⟩]
    chunkPos := (f.chunkPos + 1) % 2 ^ 32
    offset := f.offset + f.pos
    submitted := f.submitted + f.pos
    pos := 0 }

/-- `Flush`: the chunk is submitted, and the other one is waited for. -/
inductive Flushes : File → File → Prop
  | nothing {f : File} (empty : f.pos = 0) : Flushes f f
  | free {f f₁ : File} (kernel : Kernel f f₁) (filled : f₁.pos ≠ 0)
      (free : f₁.submitIo.ready f₁.submitIo.current = true) : Flushes f f₁.submitIo
  | busy {f f₁ f' : File} (kernel : Kernel f f₁) (filled : f₁.pos ≠ 0)
      (busy : f₁.submitIo.ready f₁.submitIo.current = false)
      (waits : Waits (maskChunk f₁.submitIo.chunkPos) f₁.submitIo f') : Flushes f f'

/-- The bytes that `Append` looks at: the size of the data becomes a 32-bit number. -/
def writeData (data : Bytes) : Bytes := data.take (data.length % 2 ^ 32)

/-- `copy_size`. -/
def Buffer.copySize (b : Buffer) (data : Bytes) : ℕ := min data.length (kChunkSize - b.pos)

/-- The copy into the chunk. -/
def File.copyIn (f : File) (data : Bytes) : File :=
  { f with
    chunks := Function.update f.chunks f.current
      (overwrite 0 (f.chunks f.current) f.pos (data.take (f.copySize data)))
    pos := f.pos + f.copySize data }

/-- What does not fit in the chunk. -/
def Buffer.rest (b : Buffer) (data : Bytes) : Bytes := data.drop (b.copySize data)

/-- The direct write of `Append`.  The offset moves by `copy_size`. -/
def File.submitLarge (f : File) (rest : Bytes) (copySize : ℕ) : File :=
  { f with
    inFlight := f.inFlight ++ [.write ⟨.caller rest, rest.length, f.offset, f.submitted⟩]
    offset := f.offset + copySize
    submitted := f.submitted + rest.length }

/-- `Append`. -/
inductive Appends : Bytes → File → File → Prop
  | buffered {data : Bytes} {f f₁ : File} (kernel : Kernel f f₁)
      (all : f₁.rest (writeData data) = []) : Appends data f (f₁.copyIn (writeData data))
  | small {data : Bytes} {f f₁ f₂ f' : File} (kernel : Kernel f f₁)
      (left : f₁.rest (writeData data) ≠ []) (flushes : Flushes (f₁.copyIn (writeData data)) f₂)
      (small : (f₁.rest (writeData data)).length < kWritableFileBufferSize)
      (appends : Appends (f₁.rest (writeData data)) f₂ f') : Appends data f f'
  | direct {data : Bytes} {f f₁ f₂ f₃ f' : File} (kernel : Kernel f f₁)
      (left : f₁.rest (writeData data) ≠ []) (flushes : Flushes (f₁.copyIn (writeData data)) f₂)
      (large : kWritableFileBufferSize ≤ (f₁.rest (writeData data)).length)
      (kernel' : Kernel f₂ f₃)
      (waits : Waits .large
        (f₃.submitLarge (f₁.rest (writeData data)) (f₁.copySize (writeData data))) f') :
      Appends data f f'

/-- The `fsync` of `Sync`. -/
def File.submitFsync (f : File) : File := { f with inFlight := f.inFlight ++ [.fsync] }

/-- `Sync`. -/
inductive Syncs : File → File → Prop
  | mk {f f₁ f₂ f' : File} (flushes : Flushes f f₁) (kernel : Kernel f₁ f₂)
      (waits : Waits .sync f₂.submitFsync f') : Syncs f f'

/-- The first half of `Close`: the other chunk is waited for. -/
inductive WaitsOther : File → File → Prop
  | free {f : File} (free : f.ready (!f.current) = true) : WaitsOther f f
  | busy {f f' : File} (busy : f.ready (!f.current) = false)
      (waits : Waits (maskChunk (f.chunkPos + 1)) f f') : WaitsOther f f'

/-- `close`. -/
def File.closeFd (f : File) : File := { f with isOpen := false }

/-- `Close`. -/
inductive Closes : File → File → Prop
  | closed {f : File} (closed : f.isOpen = false) : Closes f f
  | empty {f f₁ : File} (isOpen : f.isOpen = true) (other : WaitsOther f f₁)
      (empty : f₁.pos = 0) : Closes f f₁.closeFd
  | submits {f f₁ f₂ f₃ : File} (isOpen : f.isOpen = true) (other : WaitsOther f f₁)
      (kernel : Kernel f₁ f₂) (filled : f₂.pos ≠ 0)
      (waits : Waits (maskChunk f.chunkPos) f₂.submitIo f₃) : Closes f f₃.closeFd

/-- A call before `Close`. -/
inductive Call
  | append (data : Bytes)
  | flush
  | sync

/-- A call, from one state to another. -/
def Call.Runs : Call → File → File → Prop
  | .append data => Appends data
  | .flush => Flushes
  | .sync => Syncs

/-- Calls one after another. -/
inductive Calls : List Call → File → File → Prop
  | nil {f : File} : Calls [] f f
  | cons {call : Call} {calls : List Call} {f f₁ f' : File} (runs : call.Runs f f₁)
      (rest : Calls calls f₁ f') : Calls (call :: calls) f f'

/-- What a call appends. -/
def Call.data : Call → Bytes
  | .append data => data
  | .flush | .sync => []

/-- **What was appended**, in call order. -/
def appended (calls : List Call) : Bytes := (calls.map Call.data).flatten

/-! ## The ring -/

/-- The tags of the requests that are submitted and whose completions are not consumed. -/
def File.outstanding (f : File) : List Tag := f.inFlight.map Request.tag ++ f.cq

/-- **What holds of the ring**, at every time. -/
structure Ring (f : File) : Prop where
  nodup : f.outstanding.Nodup
  ready : ∀ c, f.ready c = true ↔ .chunk c ∉ f.outstanding
  chunks : ∀ c, (f.chunks c).length = kChunkSize
  pos : f.pos ≤ kChunkSize

/-- **What holds between the calls**: the chunk that is filled is not in the ring. -/
structure Resting (f : File) : Prop extends Ring f where
  current : f.ready f.current = true
  large : .large ∉ f.outstanding
  sync : .sync ∉ f.outstanding

theorem resting_new : Resting new where
  nodup := List.nodup_nil
  ready := by simp [new, File.outstanding]
  chunks := fun _ => List.length_replicate
  pos := Nat.zero_le _
  current := rfl
  large := by simp [new, File.outstanding]
  sync := by simp [new, File.outstanding]

theorem maskChunk_chunkPos (b : Buffer) : maskChunk b.chunkPos = .chunk b.current := rfl

theorem maskChunk_succ (b : Buffer) : maskChunk (b.chunkPos + 1) = .chunk (!b.current) := by
  have hflip : ((b.chunkPos + 1) % 2 == 1) = !(b.chunkPos % 2 == 1) := by
    rcases Nat.mod_two_eq_zero_or_one b.chunkPos with h | h
    · simp [Nat.add_mod, h]
    · simp [Nat.add_mod, h]
  rw [maskChunk, Buffer.current, hflip]

theorem current_submitIo (f : File) : f.submitIo.current = !f.current := by
  have hmod : (f.chunkPos + 1) % 2 ^ 32 % 2 = (f.chunkPos + 1) % 2 :=
    Nat.mod_mod_of_dvd _ ⟨2 ^ 31, rfl⟩
  have hmask := maskChunk_succ f.toBuffer
  rw [maskChunk, Tag.chunk.injEq] at hmask
  rw [← hmask]
  simp only [Buffer.current, File.submitIo, hmod]

section Kernel

variable {f f' : File} {tag : Tag}

theorem Executes.toBuffer (h : Executes f f') : f'.toBuffer = f.toBuffer := by
  obtain ⟨before, r, after, -, rfl⟩ := h
  cases r <;> rfl

theorem Executes.ready (h : Executes f f') : f'.ready = f.ready := by
  obtain ⟨before, r, after, -, rfl⟩ := h
  cases r <;> rfl

theorem Executes.outstanding (h : Executes f f') : f'.outstanding.Perm f.outstanding := by
  obtain ⟨before, r, after, hsplit, rfl⟩ := h
  simp only [File.outstanding, hsplit, List.map_append, List.map_cons, List.append_assoc]
  refine List.Perm.append_left _ ?_
  rw [← List.append_assoc]
  exact List.perm_append_comm

theorem Ring.of_perm (h : Ring f) (buffer : f'.toBuffer = f.toBuffer) (ready : f'.ready = f.ready)
    (perm : f'.outstanding.Perm f.outstanding) : Ring f' where
  nodup := perm.nodup_iff.mpr h.nodup
  ready := fun c => by rw [ready, h.ready c, perm.mem_iff]
  chunks := by rw [buffer]; exact h.chunks
  pos := by rw [buffer]; exact h.pos

theorem Resting.of_perm (h : Resting f) (buffer : f'.toBuffer = f.toBuffer)
    (ready : f'.ready = f.ready) (perm : f'.outstanding.Perm f.outstanding) : Resting f' where
  toRing := h.toRing.of_perm buffer ready perm
  current := by rw [ready, buffer]; exact h.current
  large := fun hmem => h.large (perm.mem_iff.mp hmem)
  sync := fun hmem => h.sync (perm.mem_iff.mp hmem)

/-- The kernel leaves the file's own variables alone, and moves tags to the completions. -/
theorem Kernel.spec (h : Kernel f f') :
    f'.toBuffer = f.toBuffer ∧ f'.ready = f.ready ∧ f'.outstanding.Perm f.outstanding := by
  induction h with
  | refl => exact ⟨rfl, rfl, .refl _⟩
  | tail _ hstep ih =>
      exact ⟨hstep.toBuffer.trans ih.1, hstep.ready.trans ih.2.1, hstep.outstanding.trans ih.2.2⟩

theorem Kernel.ring (h : Kernel f f') (ring : Ring f) : Ring f' :=
  ring.of_perm h.spec.1 h.spec.2.1 h.spec.2.2

theorem Kernel.resting (h : Kernel f f') (resting : Resting f) : Resting f' :=
  resting.of_perm h.spec.1 h.spec.2.1 h.spec.2.2

/-- Behind a consumption, the tags in flight are outstanding. -/
theorem Ring.consume (h : Ring f) : Ring f.consume where
  nodup := by
    rw [File.outstanding, File.consume, List.append_nil]
    exact (List.nodup_append.mp h.nodup).1
  ready := by
    intro c
    have hready := h.ready c
    have hdisjoint := List.disjoint_of_nodup_append h.nodup
    simp only [File.consume, File.outstanding, List.append_nil, Bool.or_eq_true,
      decide_eq_true_eq, hready, List.mem_append, not_or]
    constructor
    · rintro (h | h)
      · exact h.1
      · exact fun hmem => hdisjoint hmem h
    · intro hnot
      by_cases hcq : .chunk c ∈ f.cq
      · exact .inr hcq
      · exact .inl ⟨hnot, hcq⟩
  chunks := h.chunks
  pos := h.pos

theorem outstanding_consume_subset (f : File) : f.consume.outstanding ⊆ f.outstanding := by
  rw [File.outstanding, File.consume, List.append_nil]
  exact List.subset_append_left _ _

/-- **A wait** leaves the file's own variables alone, and behind it the tag is not in the ring. -/
theorem Waits.spec (h : Waits tag f f') (ring : Ring f) :
    Ring f' ∧ f'.toBuffer = f.toBuffer ∧ f'.outstanding ⊆ f.outstanding ∧
      tag ∉ f'.outstanding := by
  induction h with
  | @found f f₁ kernel here =>
      have hring := kernel.ring ring
      refine ⟨hring.consume, kernel.spec.1, fun t ht => ?_, fun hmem => ?_⟩
      · exact kernel.spec.2.2.subset (outstanding_consume_subset f₁ ht)
      · rw [File.outstanding, File.consume, List.append_nil] at hmem
        exact List.disjoint_of_nodup_append hring.nodup hmem here
  | @again f f₁ f' kernel some not rest ih =>
      obtain ⟨hring, hbuffer, hsub, hnot⟩ := ih (kernel.ring ring).consume
      refine ⟨hring, hbuffer.trans kernel.spec.1, fun t ht => ?_, hnot⟩
      exact kernel.spec.2.2.subset (outstanding_consume_subset f₁ (hsub ht))

end Kernel

section Submissions

variable {f f' : File}

/-- A request whose tag is not in the ring is submitted. -/
theorem nodup_submit (h : f.outstanding.Nodup) {r : Request} (fresh : r.tag ∉ f.outstanding) :
    ((f.inFlight ++ [r]).map Request.tag ++ f.cq).Nodup := by
  have hperm : ((f.inFlight ++ [r]).map Request.tag ++ f.cq).Perm (r.tag :: f.outstanding) := by
    rw [List.map_append, List.map_singleton, List.append_assoc, List.singleton_append]
    exact List.perm_middle
  exact hperm.nodup_iff.mpr (List.nodup_cons.mpr ⟨fresh, h⟩)

theorem mem_submit {r : Request} {tag : Tag} :
    tag ∈ (f.inFlight ++ [r]).map Request.tag ++ f.cq ↔ tag = r.tag ∨ tag ∈ f.outstanding := by
  simp only [File.outstanding, List.map_append, List.map_singleton, List.mem_append,
    List.mem_singleton]
  tauto

theorem Ring.submitIo (h : Ring f) (current : f.ready f.current = true) : Ring f.submitIo where
  nodup := nodup_submit h.nodup ((h.ready _).mp current)
  ready := by
    intro c
    rw [File.outstanding, File.submitIo, mem_submit]
    by_cases hc : c = f.current
    · subst hc
      simp [Request.tag, Write.tag]
    · simp only [Function.update_of_ne hc, h.ready c, Request.tag, Write.tag, Tag.chunk.injEq, hc,
        false_or]
  chunks := h.chunks
  pos := Nat.zero_le _

/-- A request that is not about a chunk is submitted. -/
theorem Ring.submit (h : Ring f) {r : Request} (fresh : r.tag ∉ f.outstanding)
    (other : ∀ c, r.tag ≠ .chunk c) (buffer : f'.chunks = f.chunks ∧ f'.pos = f.pos)
    (ready : f'.ready = f.ready) (inFlight : f'.inFlight = f.inFlight ++ [r])
    (cq : f'.cq = f.cq) : Ring f' where
  nodup := by
    rw [File.outstanding, inFlight, cq]
    exact nodup_submit h.nodup fresh
  ready := by
    intro c
    rw [File.outstanding, inFlight, cq, mem_submit, ready, h.ready c, not_or]
    exact ⟨fun hnot => ⟨fun heq => other c heq.symm, hnot⟩, fun hnot => hnot.2⟩
  chunks := by rw [buffer.1]; exact h.chunks
  pos := by rw [buffer.2]; exact h.pos

theorem Ring.submitLarge (h : Ring f) (fresh : .large ∉ f.outstanding) (rest : Bytes) (n : ℕ) :
    Ring (f.submitLarge rest n) :=
  h.submit (r := .write ⟨.caller rest, rest.length, f.offset, f.submitted⟩) fresh
    (fun _ => by simp [Request.tag, Write.tag]) ⟨rfl, rfl⟩ rfl rfl rfl

theorem Ring.submitFsync (h : Ring f) (fresh : .sync ∉ f.outstanding) : Ring f.submitFsync :=
  h.submit (r := .fsync) fresh (fun _ => by simp [Request.tag]) ⟨rfl, rfl⟩ rfl rfl rfl

theorem copySize_le (b : Buffer) (data : Bytes) : b.copySize data ≤ data.length := min_le_left _ _

theorem Resting.copyIn (h : Resting f) (data : Bytes) : Resting (f.copyIn data) where
  nodup := h.nodup
  ready := h.ready
  chunks := by
    intro c
    by_cases hc : c = f.current
    · subst hc
      have hle : f.pos + (data.take (f.copySize data)).length ≤ kChunkSize := by
        have := h.pos
        rw [List.length_take, Buffer.copySize]
        omega
      simp only [File.copyIn, Function.update_self, length_overwrite, h.chunks,
        max_eq_left hle]
    · simp only [File.copyIn, Function.update_of_ne hc, h.chunks]
  pos := by
    have := h.pos
    simp only [File.copyIn, Buffer.copySize]
    omega
  current := h.current
  large := h.large
  sync := h.sync

/-- A wait for the chunk that is filled next brings the file to rest. -/
theorem Resting.of_ring (h : Ring f') (current : .chunk f'.current ∉ f'.outstanding)
    (large : .large ∉ f'.outstanding) (sync : .sync ∉ f'.outstanding) : Resting f' where
  toRing := h
  current := (h.ready _).mpr current
  large := large
  sync := sync

end Submissions

/-! ## What the calls keep -/

/-- **A property of files that requests keep.** -/
structure Stable (I : File → Prop) : Prop where
  exec : ∀ {f f' : File}, Executes f f' → I f → I f'
  consume : ∀ {f : File}, I f → I f.consume
  submitIo : ∀ {f : File}, Resting f → f.pos ≠ 0 → I f → I f.submitIo
  submitFsync : ∀ {f : File}, I f → I f.submitFsync
  closeFd : ∀ {f : File}, I f → I f.closeFd

section Keeps

variable {f f' : File} {tag : Tag} {I : File → Prop}

theorem Kernel.keeps (h : Kernel f f') (stable : Stable I) (this : I f) : I f' := by
  induction h with
  | refl => exact this
  | tail _ hstep ih => exact stable.exec hstep ih

theorem Waits.keeps (h : Waits tag f f') (stable : Stable I) (this : I f) : I f' := by
  induction h with
  | found kernel here => exact stable.consume (kernel.keeps stable this)
  | again kernel some not rest ih => exact ih (stable.consume (kernel.keeps stable this))

theorem Waits.resting (h : Waits tag f f') (resting : Resting f) : Resting f' := by
  obtain ⟨hring, hbuffer, hsub, -⟩ := h.spec resting.toRing
  refine .of_ring hring (fun hmem => ?_) (fun hmem => resting.large (hsub hmem))
    (fun hmem => resting.sync (hsub hmem))
  rw [hbuffer] at hmem
  exact (resting.ready _).mp resting.current (hsub hmem)

/-- The tags that are not about chunks are not submitted with a chunk. -/
theorem notMem_submitIo (other : ∀ c, tag ≠ .chunk c) (not : tag ∉ f.outstanding) :
    tag ∉ f.submitIo.outstanding := by
  rw [File.outstanding, File.submitIo, mem_submit, not_or]
  exact ⟨other _, not⟩

theorem Flushes.keeps (h : Flushes f f') (stable : Stable I) (resting : Resting f) (this : I f) :
    I f' := by
  cases h with
  | nothing => exact this
  | free kernel filled _ =>
      exact stable.submitIo (kernel.resting resting) filled (kernel.keeps stable this)
  | busy kernel filled _ waits =>
      exact waits.keeps stable
        (stable.submitIo (kernel.resting resting) filled (kernel.keeps stable this))

/-- **A flush** empties the chunk, and brings the file to rest again. -/
theorem Flushes.spec (h : Flushes f f') (resting : Resting f) :
    Resting f' ∧ f'.pos = 0 ∧ f'.submitted = f.submitted + f.pos ∧ f'.isOpen = f.isOpen := by
  cases h with
  | nothing empty => exact ⟨resting, empty, by rw [empty, Nat.add_zero], rfl⟩
  | @free f₁ kernel filled free =>
      have hresting := kernel.resting resting
      have hring := hresting.toRing.submitIo hresting.current
      refine ⟨.of_ring hring ((hring.ready _).mp free)
        (notMem_submitIo (by simp) hresting.large) (notMem_submitIo (by simp) hresting.sync), rfl,
        ?_, ?_⟩
      · rw [← kernel.spec.1]
        rfl
      · rw [← kernel.spec.1]
        rfl
  | @busy f₁ _ kernel filled busy waits =>
      have hresting := kernel.resting resting
      obtain ⟨hring, hbuffer, hsub, hnot⟩ :=
        waits.spec (hresting.toRing.submitIo hresting.current)
      refine ⟨.of_ring hring ?_ ?_ ?_, ?_, ?_, ?_⟩
      · rw [hbuffer]
        exact hnot
      · exact fun hmem => notMem_submitIo (by simp) hresting.large (hsub hmem)
      · exact fun hmem => notMem_submitIo (by simp) hresting.sync (hsub hmem)
      · rw [hbuffer]
        rfl
      · rw [hbuffer, ← kernel.spec.1]
        rfl
      · rw [hbuffer, ← kernel.spec.1]
        rfl

theorem Syncs.keeps (h : Syncs f f') (stable : Stable I) (resting : Resting f) (this : I f) :
    I f' := by
  obtain ⟨flushes, kernel, waits⟩ := h
  exact waits.keeps stable
    (stable.submitFsync (kernel.keeps stable (flushes.keeps stable resting this)))

/-- **A sync** empties the chunk, and brings the file to rest again. -/
theorem Syncs.spec (h : Syncs f f') (resting : Resting f) :
    Resting f' ∧ f'.pos = 0 ∧ f'.submitted = f.submitted + f.pos ∧ f'.isOpen = f.isOpen := by
  obtain ⟨flushes, kernel, waits⟩ := h
  obtain ⟨hrest, hpos, hsubmitted, hopen⟩ := flushes.spec resting
  have hresting := kernel.resting hrest
  obtain ⟨hring, hbuffer, hsub, hnot⟩ := waits.spec (hresting.toRing.submitFsync hresting.sync)
  have hbuffer' := hbuffer.trans kernel.spec.1
  have hmem : ∀ {tag : Tag}, tag ≠ .sync → tag ∉ _ → tag ∉ _ := fun {tag} hne hout hmem => by
    rcases mem_submit.mp (hsub hmem) with heq | hmem
    · exact hne heq
    · exact hout hmem
  refine ⟨.of_ring hring ?_ (hmem (by simp) hresting.large) hnot, ?_, ?_, ?_⟩
  · rw [hbuffer]
    exact hmem (by simp) ((hresting.ready _).mp hresting.current)
  · rw [hbuffer', hpos]
  · rw [hbuffer', hsubmitted]
  · rw [hbuffer', hopen]

theorem WaitsOther.keeps (h : WaitsOther f f') (stable : Stable I) (this : I f) : I f' := by
  cases h with
  | free => exact this
  | busy _ waits => exact waits.keeps stable this

/-- Behind the first half of `Close`, the other chunk is not in the ring. -/
theorem WaitsOther.spec (h : WaitsOther f f') (resting : Resting f) :
    Resting f' ∧ f'.toBuffer = f.toBuffer ∧ .chunk (!f.current) ∉ f'.outstanding := by
  cases h with
  | free free => exact ⟨resting, rfl, (resting.ready _).mp free⟩
  | busy _ waits =>
      obtain ⟨-, hbuffer, -, hnot⟩ := waits.spec resting.toRing
      rw [maskChunk_succ] at hnot
      exact ⟨waits.resting resting, hbuffer, hnot⟩

theorem Closes.keeps (h : Closes f f') (stable : Stable I) (resting : Resting f) (this : I f) :
    I f' := by
  cases h with
  | closed => exact this
  | empty _ other _ => exact stable.closeFd (other.keeps stable this)
  | submits _ other kernel filled waits =>
      have hresting := kernel.resting (other.spec resting).1
      exact stable.closeFd (waits.keeps stable (stable.submitIo hresting filled
        (kernel.keeps stable (other.keeps stable this))))

/-- Where no tag is in the ring, no request is in flight. -/
theorem inFlight_nil (chunks : ∀ c, .chunk c ∉ f.outstanding) (large : .large ∉ f.outstanding)
    (sync : .sync ∉ f.outstanding) : f.inFlight = [] := by
  rw [List.eq_nil_iff_forall_not_mem]
  intro r hr
  have hmem : r.tag ∈ f.outstanding := List.mem_append_left _ (List.mem_map_of_mem hr)
  cases htag : r.tag with
  | chunk c => exact chunks c (htag ▸ hmem)
  | sync => exact sync (htag ▸ hmem)
  | large => exact large (htag ▸ hmem)

/-- **Behind `Close`**, nothing is in flight and the chunks are empty. -/
theorem Closes.spec (h : Closes f f') (resting : Resting f) (isOpen : f.isOpen = true) :
    f'.inFlight = [] ∧ f'.pos = 0 ∧ f'.submitted = f.submitted + f.pos := by
  cases h with
  | closed closed => exact absurd (isOpen.symm.trans closed) (by simp)
  | @empty f₁ _ other empty =>
      obtain ⟨hresting, hbuffer, hother⟩ := other.spec resting
      refine ⟨?_, empty, ?_⟩
      · refine inFlight_nil (f := f₁) (fun c => ?_) hresting.large hresting.sync
        by_cases hc : c = f.current
        · rw [hc, ← hbuffer]
          exact (hresting.ready _).mp hresting.current
        · rwa [Bool.eq_not_of_ne hc]
      · show f₁.submitted = _
        rw [← hbuffer, empty, Nat.add_zero]
  | @submits f₁ f₂ f₃ _ other kernel filled waits =>
      obtain ⟨hresting, hbuffer, hother⟩ := other.spec resting
      have hresting₂ := kernel.resting hresting
      have hbuffer₂ := kernel.spec.1.trans hbuffer
      obtain ⟨hring, hbuffer₃, hsub, hnot⟩ :=
        waits.spec (hresting₂.toRing.submitIo hresting₂.current)
      refine ⟨inFlight_nil (f := f₃) (fun c => ?_) ?_ ?_, ?_, ?_⟩
      · by_cases hc : c = f.current
        · rw [hc]
          exact hnot
        · intro hmem
          rcases mem_submit.mp (hsub hmem) with heq | hmem
          · rw [Request.tag, Write.tag, Tag.chunk.injEq, hbuffer₂] at heq
            exact hc heq
          · rw [Bool.eq_not_of_ne hc] at hmem
            exact hother (kernel.spec.2.2.mem_iff.mp hmem)
      · exact fun hmem => notMem_submitIo (by simp) hresting₂.large (hsub hmem)
      · exact fun hmem => notMem_submitIo (by simp) hresting₂.sync (hsub hmem)
      · show f₃.pos = 0
        rw [hbuffer₃]
        rfl
      · show f₃.submitted = _
        rw [hbuffer₃, ← hbuffer₂]
        rfl

end Keeps

/-! ## Where the bytes of an append go -/

/-- An append of `n` bytes with `pos` bytes in the chunk takes the direct path: enough is left
when the chunk is full. -/
def TakesDirect (pos n : ℕ) : Prop := kWritableFileBufferSize ≤ n - (kChunkSize - pos)

instance (pos n : ℕ) : Decidable (TakesDirect pos n) := inferInstanceAs (Decidable (_ ≤ _))

/-- How much is in the chunk behind an append of `n` bytes. -/
def nextPos (pos n : ℕ) : ℕ :=
  if n ≤ kChunkSize - pos then pos + n
  else if TakesDirect pos n then 0
  else if n - (kChunkSize - pos) ≤ kChunkSize then n - (kChunkSize - pos)
  else n - (kChunkSize - pos) - kChunkSize

section Append

variable {f f' : File} {data : Bytes}

@[simp]
theorem length_writeData (data : Bytes) : (writeData data).length = data.length % 2 ^ 32 := by
  rw [writeData, List.length_take]
  exact min_eq_left (Nat.mod_le _ _)

theorem writeData_eq (h : data.length < 2 ^ 32) : writeData data = data := by
  rw [writeData, Nat.mod_eq_of_lt h, List.take_length]

@[simp]
theorem length_rest (b : Buffer) (data : Bytes) :
    (b.rest data).length = data.length - (kChunkSize - b.pos) := by
  rw [Buffer.rest, List.length_drop, Buffer.copySize]
  omega

theorem rest_eq_nil_iff {b : Buffer} : b.rest data = [] ↔ data.length ≤ kChunkSize - b.pos := by
  rw [← List.length_eq_zero_iff, length_rest]
  omega

theorem take_append_rest (b : Buffer) (data : Bytes) :
    data.take (b.copySize data) ++ b.rest data = data := List.take_append_drop _ _

/-- What is left for a call of its own is not taken modulo anything. -/
theorem writeData_rest {b : Buffer} (small : (b.rest data).length < kWritableFileBufferSize) :
    writeData (b.rest data) = b.rest data := by
  refine writeData_eq ?_
  rw [kWritableFileBufferSize_eq] at small
  omega

/-- What is left for a call of its own does not take the direct path there. -/
theorem not_takesDirect_zero {n : ℕ} (small : n < kWritableFileBufferSize) : ¬ TakesDirect 0 n := by
  unfold TakesDirect
  omega

theorem nextPos_rest {pos n : ℕ} (left : ¬ n ≤ kChunkSize - pos)
    (small : n - (kChunkSize - pos) < kWritableFileBufferSize) :
    nextPos 0 (n - (kChunkSize - pos)) = nextPos pos n := by
  have hdirect : ¬ TakesDirect pos n := Nat.not_le.mpr small
  have hchunk := kChunkSize_eq
  have hbuffer := kWritableFileBufferSize_eq
  rw [nextPos, nextPos, if_neg left, if_neg hdirect, if_neg (not_takesDirect_zero small)]
  split_ifs <;> omega

theorem isOpen_copyIn (f : File) (data : Bytes) : (f.copyIn data).isOpen = f.isOpen := rfl

theorem submitted_copyIn (f : File) (data : Bytes) :
    (f.copyIn data).submitted = f.submitted := rfl

theorem pos_copyIn_of_rest (h : Ring f) (left : f.rest data ≠ []) :
    (f.copyIn data).pos = kChunkSize := by
  have hpos := h.pos
  rw [ne_eq, rest_eq_nil_iff] at left
  simp only [File.copyIn, Buffer.copySize]
  omega

/-- **An append** takes its bytes, and brings the file to rest again. -/
theorem Appends.spec (h : Appends data f f') (resting : Resting f) :
    Resting f' ∧ f'.pos = nextPos f.pos (data.length % 2 ^ 32) ∧
      f'.submitted + f'.pos = f.submitted + f.pos + data.length % 2 ^ 32 ∧
      f'.isOpen = f.isOpen := by
  induction h with
  -- all fits into the buffer
  | @buffered data f f₁ kernel all =>
      have hbuffer := kernel.spec.1
      rw [rest_eq_nil_iff, length_writeData, hbuffer] at all
      have hcopy : f.copySize (writeData data) = data.length % 2 ^ 32 := by
        rw [Buffer.copySize, length_writeData, min_eq_left all]
      refine ⟨(kernel.resting resting).copyIn _, ?_, ?_, ?_⟩
      · simp only [File.copyIn, hcopy, nextPos, if_pos all, hbuffer]
      · simp only [File.copyIn, hcopy, hbuffer]
        omega
      · rw [isOpen_copyIn, hbuffer]
  -- the buffer is filled and flushed, and what is left is smaller than a chunk: append again
  | @small data f f₁ f₂ f' kernel left flushes small appends ih =>
      have hbuffer := kernel.spec.1
      have hresting := kernel.resting resting
      obtain ⟨hrest, hpos, hsubmitted, hopen⟩ := flushes.spec (hresting.copyIn _)
      obtain ⟨hrest', hpos', hsubmitted', hopen'⟩ := ih hrest
      rw [pos_copyIn_of_rest hresting.toRing left] at hsubmitted
      rw [← length_writeData, writeData_rest small] at hpos' hsubmitted'
      rw [ne_eq, rest_eq_nil_iff] at left
      simp only [length_rest, length_writeData, hbuffer] at left small hpos' hsubmitted'
      refine ⟨hrest', ?_, ?_, ?_⟩
      · rw [hpos', hpos, nextPos_rest left small]
      · have hbound := resting.pos
        have hfirst : f₂.submitted = f.submitted + kChunkSize := by
          rw [hsubmitted, submitted_copyIn, hbuffer]
        rw [hsubmitted', hpos, hfirst]
        omega
      · rw [hopen', hopen, isOpen_copyIn, hbuffer]
  -- what is left is a chunk or more: it is submitted as one write, and waited for
  | @direct data f f₁ f₂ f₃ f' kernel left flushes large kernel' waits =>
      have hbuffer := kernel.spec.1
      have hresting := kernel.resting resting
      obtain ⟨hrest, hpos, hsubmitted, hopen⟩ := flushes.spec (hresting.copyIn _)
      have hresting' := kernel'.resting hrest
      obtain ⟨hring, hwaits, hsub, hnot⟩ :=
        waits.spec (hresting'.toRing.submitLarge hresting'.large _ _)
      rw [pos_copyIn_of_rest hresting.toRing left] at hsubmitted
      have hsubmitted' : f'.submitted =
          f.submitted + kChunkSize + (f₁.rest (writeData data)).length := by
        rw [hwaits]
        simp only [File.submitLarge]
        rw [kernel'.spec.1, hsubmitted, submitted_copyIn, hbuffer]
      have hmem : ∀ {tag : Tag}, tag ≠ .large → tag ∉ f₃.outstanding → tag ∉ f'.outstanding :=
        fun {tag} hne hout hmem => by
          rcases mem_submit.mp (hsub hmem) with heq | hmem
          · exact hne heq
          · exact hout hmem
      have hpos' : f'.pos = 0 := by
        rw [hwaits]
        simp only [File.submitLarge]
        rw [kernel'.spec.1, hpos]
      rw [ne_eq, rest_eq_nil_iff] at left
      simp only [length_rest, length_writeData, hbuffer] at left large hsubmitted'
      refine ⟨.of_ring hring ?_ hnot (hmem (by simp) hresting'.sync), ?_, ?_, ?_⟩
      · rw [hwaits]
        exact hmem (by simp) ((hresting'.ready _).mp hresting'.current)
      · rw [hpos', nextPos, if_neg left, if_pos (show TakesDirect _ _ from large)]
      · have hbound := resting.pos
        rw [hpos', hsubmitted']
        omega
      · rw [hwaits]
        simp only [File.submitLarge]
        rw [kernel'.spec.1, hopen, isOpen_copyIn, hbuffer]

end Append

end UringFile

end Lsmkv
