import Lsmkv.UringFile

/-!
# Failures of a ring file

`UringFile` has the calls of `UringWritableFile` (`src/file.cpp`) as relations, for requests that
succeed.  Here they are cut into the steps of the source, and a request may fail: `io_uring_submit`
may refuse it, and its completion may carry a negative result.  A step is taken at a place of the
code, and the kernel moves between any two steps.

Without failures the protocol of the two chunks holds at every place (`Place.Holds`), so a chunk is
written only while it is not in the ring, every wait is for a request that is in the ring, and
`Close` closes the descriptor on an empty ring (`chunks_protected`).

A failure is a matter of who hears of it.  `Append` and `Flush` hand on what `ProcessCompletions`
says, but `Sync` drops the status of its `Flush`, `Flush` takes a refused submission for nothing to
submit, and `Close` returns `OK` whatever it waits for.  Where no failure meets one of these, some
call behind it is not `OK` (`failure_reported`); but the calls of `BuildTable` can all be `OK` on a
file whose bytes were not written (`failure_missed`).
-/

namespace Lsmkv

namespace UringFile

open ByteCode

/-! ## Places and steps -/

/-- Who called `Flush`: the client, `Append` with what is left, or `Sync`. -/
inductive FlushCaller
  | client
  | append (rest : Bytes) (copySize : ℕ)
  | sync

/-- Who called `ProcessCompletions`. -/
inductive Waiter
  | flush (caller : FlushCaller)
  | direct
  | sync
  /-- `Close`, for the other chunk than the one it found. -/
  | closeOther (chunk : ℕ)
  | closeLast

/-- Where the thread is. -/
inductive Place
  | idle
  | append (data : Bytes)
  | flush (caller : FlushCaller)
  /-- The direct write of `Append`. -/
  | direct (rest : Bytes) (copySize : ℕ)
  /-- `Sync`, behind its `Flush`. -/
  | fsync
  | wait (tag : Tag) (waiter : Waiter)
  | close
  /-- `Close`, behind the wait for the other chunk. -/
  | closeSubmit (chunk : ℕ)
  | closeFd
  | closed

/-- A file, and where its client is. -/
structure Config where
  file : File
  /-- Requests that were handed to a submission that failed; the next one takes them along. -/
  queued : List Request
  /-- A completion that is not consumed has a negative result. -/
  negative : Bool
  place : Place
  /-- Which calls have returned `OK`. -/
  statuses : List Bool
  /-- How many calls had returned when a request failed for the first time. -/
  failedAt : Option ℕ

/-- A new file. -/
def Config.new : Config := ⟨UringFile.new, [], false, .idle, [], none⟩

namespace Config

def goto (c : Config) (place : Place) : Config := { c with place := place }

/-- The call returns. -/
def returns (c : Config) (ok : Bool) : Config :=
  { c with place := .idle, statuses := c.statuses ++ [ok] }

/-- A request fails. -/
def fails (c : Config) : Config :=
  { c with failedAt := c.failedAt.or (some c.statuses.length) }

/-- `Flush` returns to its caller. -/
def flushed (c : Config) (ok : Bool) : FlushCaller → Config
  | .client => c.returns ok
  | .append rest copySize =>
      if ok then
        if rest.length < kWritableFileBufferSize then c.goto (.append rest)
        else c.goto (.direct rest copySize)
      else c.returns false
  | .sync => c.goto .fsync

/-- `ProcessCompletions` returns to its caller. -/
def waited (c : Config) (ok : Bool) : Waiter → Config
  | .flush caller => c.flushed ok caller
  | .direct | .sync => c.returns ok
  | .closeOther chunk => c.goto (.closeSubmit chunk)
  | .closeLast => c.goto .closeFd

/-- The file, with what earlier submissions have left in the queue of the ring. -/
def drained (c : Config) : File := { c.file with inFlight := c.file.inFlight ++ c.queued }

/-- `io_uring_submit`, where it succeeds. -/
def accepted (c : Config) (file : File) : Config := { c with file := file, queued := [] }

/-- `io_uring_submit`, where it fails: the request stays in the queue. -/
def refused (c : Config) (file : File) (r : Request) : Config :=
  { c.fails with
    file := { file with inFlight := c.file.inFlight }
    queued := c.queued ++ [r] }

/-- The completions that are there are consumed. -/
def consumed (c : Config) : Config := { c with file := c.file.consume, negative := false }

end Config

/-- The place where a call begins. -/
def Call.place : Call → Place
  | .append data => .append data
  | .flush => .flush .client
  | .sync => .flush .sync

/-- What a step is about. -/
inductive Event
  /-- The kernel executes a request. -/
  | kernel
  /-- The kernel completes a request with a negative result. -/
  | fault
  /-- A call goes on. -/
  | advance
  /-- A submission fails. -/
  | refuse
  /-- `ProcessCompletions` consumes completions. -/
  | consume

/-- The request of `SubmitIO`. -/
def File.chunkWrite (f : File) : Request :=
  .write ⟨.chunk f.current, f.pos, f.offset, f.submitted⟩

/-- The request of the direct write. -/
def File.largeWrite (f : File) (rest : Bytes) : Request :=
  .write ⟨.caller rest, rest.length, f.offset, f.submitted⟩

/-- A step of the kernel or of the client. -/
inductive Step (c : Config) : Event → Config → Prop
  | executes {f : File} (executes : Executes c.file f) : Step c .kernel { c with file := f }
  | faults {before after : List Request} {r : Request}
      (inFlight : c.file.inFlight = before ++ r :: after) :
      Step c .fault { c.fails with
        file := { c.file with inFlight := before ++ after, cq := c.file.cq ++ [r.tag] }
        negative := true }
  | calls (idle : c.place = .idle) (call : Call) : Step c .advance (c.goto call.place)
  | closes (idle : c.place = .idle) : Step c .advance (c.goto .close)
  -- `Append`
  | buffered {data : Bytes} (here : c.place = .append data)
      (all : c.file.rest (writeData data) = []) :
      Step c .advance ({ c with file := c.file.copyIn (writeData data) }.returns true)
  | overflows {data : Bytes} (here : c.place = .append data)
      (left : c.file.rest (writeData data) ≠ []) :
      Step c .advance ({ c with file := c.file.copyIn (writeData data) }.goto
        (.flush (.append (c.file.rest (writeData data)) (c.file.copySize (writeData data)))))
  | directSubmits {rest : Bytes} {copySize : ℕ} (here : c.place = .direct rest copySize) :
      Step c .advance ((c.accepted (c.drained.submitLarge rest copySize)).goto (.wait .large .direct))
  | directRefused {rest : Bytes} {copySize : ℕ} (here : c.place = .direct rest copySize) :
      Step c .refuse ((c.refused (c.file.submitLarge rest copySize) (c.file.largeWrite rest)).returns
        false)
  -- `Flush`
  | flushEmpty {caller : FlushCaller} (here : c.place = .flush caller) (empty : c.file.pos = 0) :
      Step c .advance (c.flushed true caller)
  | flushFree {caller : FlushCaller} (here : c.place = .flush caller) (filled : c.file.pos ≠ 0)
      (free : c.drained.submitIo.ready c.drained.submitIo.current = true) :
      Step c .advance ((c.accepted c.drained.submitIo).flushed true caller)
  | flushBusy {caller : FlushCaller} (here : c.place = .flush caller) (filled : c.file.pos ≠ 0)
      (busy : c.drained.submitIo.ready c.drained.submitIo.current = false) :
      Step c .advance ((c.accepted c.drained.submitIo).goto
        (.wait (maskChunk c.drained.submitIo.chunkPos) (.flush caller)))
  | flushRefused {caller : FlushCaller} (here : c.place = .flush caller) (filled : c.file.pos ≠ 0) :
      Step c .refuse ((c.refused c.file.submitIo c.file.chunkWrite).flushed true caller)
  -- `Sync`
  | fsyncSubmits (here : c.place = .fsync) :
      Step c .advance ((c.accepted c.drained.submitFsync).goto (.wait .sync .sync))
  | fsyncRefused (here : c.place = .fsync) :
      Step c .refuse ((c.refused c.file.submitFsync .fsync).returns false)
  -- `ProcessCompletions`
  | consumesNegative {tag : Tag} {waiter : Waiter} (here : c.place = .wait tag waiter)
      (some : c.file.cq ≠ []) (negative : c.negative = true) :
      Step c .consume (c.consumed.waited false waiter)
  | consumesTarget {tag : Tag} {waiter : Waiter} (here : c.place = .wait tag waiter)
      (target : tag ∈ c.file.cq) (positive : c.negative = false) :
      Step c .consume (c.consumed.waited true waiter)
  | consumesOther {tag : Tag} {waiter : Waiter} (here : c.place = .wait tag waiter)
      (some : c.file.cq ≠ []) (not : tag ∉ c.file.cq) (positive : c.negative = false) :
      Step c .consume c.consumed
  -- `Close`
  | closeAgain (here : c.place = .close) (shut : c.file.isOpen = false) :
      Step c .advance ((c.returns true).goto .closed)
  | closeFree (here : c.place = .close) (isOpen : c.file.isOpen = true)
      (free : c.file.ready (!c.file.current) = true) :
      Step c .advance (c.goto (.closeSubmit c.file.chunkPos))
  | closeBusy (here : c.place = .close) (isOpen : c.file.isOpen = true)
      (busy : c.file.ready (!c.file.current) = false) :
      Step c .advance (c.goto
        (.wait (maskChunk (c.file.chunkPos + 1)) (.closeOther c.file.chunkPos)))
  | closeEmpty {chunk : ℕ} (here : c.place = .closeSubmit chunk) (empty : c.file.pos = 0) :
      Step c .advance (c.goto .closeFd)
  | closeSubmits {chunk : ℕ} (here : c.place = .closeSubmit chunk) (filled : c.file.pos ≠ 0) :
      Step c .advance ((c.accepted c.drained.submitIo).goto (.wait (maskChunk chunk) .closeLast))
  | closeRefused {chunk : ℕ} (here : c.place = .closeSubmit chunk) (filled : c.file.pos ≠ 0) :
      Step c .refuse ((c.refused c.file.submitIo c.file.chunkWrite).goto .closeFd)
  | shuts (here : c.place = .closeFd) :
      Step c .advance (({ c with file := c.file.closeFd }.returns true).goto .closed)

/-- What runs reach whose steps meet a condition. -/
inductive Reaches (cond : Config → Event → Prop) : Config → Prop
  | new : Reaches cond .new
  | step {c c' : Config} {event : Event} (reached : Reaches cond c) (meets : cond c event)
      (step : Step c event c') : Reaches cond c'

/-- No request fails. -/
def Faultless (_ : Config) (event : Event) : Prop := event ≠ .fault ∧ event ≠ .refuse

/-- Who drops the status of `ProcessCompletions`: `Close`, and `Sync` that of its `Flush`. -/
def Waiter.drops : Waiter → Bool
  | .flush .sync | .closeOther _ | .closeLast => true
  | _ => false

/-- **A failure is heard of**: `SubmitIO` is not refused, and a negative result is not consumed
where its status is dropped. -/
def Heard (c : Config) : Event → Prop
  | .refuse => (∀ caller, c.place ≠ .flush caller) ∧ ∀ chunk, c.place ≠ .closeSubmit chunk
  | .consume => c.negative = true → ∀ tag waiter, c.place = .wait tag waiter → waiter.drops = false
  | _ => True

/-! ## What returning changes -/

namespace Config

variable (c : Config) (ok : Bool) (caller : FlushCaller) (waiter : Waiter)

/-- A flush that returns goes to a place and adds at most its status. -/
theorem flushed_eq : ∃ place statuses,
    c.flushed ok caller = { c with place := place, statuses := statuses } ∧
      (statuses = c.statuses ∨ statuses = c.statuses ++ [ok]) := by
  cases caller with
  | client => exact ⟨_, _, rfl, .inr rfl⟩
  | append rest copySize =>
      cases ok with
      | false => exact ⟨_, _, rfl, .inr rfl⟩
      | true =>
          rw [flushed, if_pos rfl]
          split
          · exact ⟨_, _, rfl, .inl rfl⟩
          · exact ⟨_, _, rfl, .inl rfl⟩
  | sync => exact ⟨_, _, rfl, .inl rfl⟩

/-- So does a wait that returns. -/
theorem waited_eq : ∃ place statuses,
    c.waited ok waiter = { c with place := place, statuses := statuses } ∧
      (statuses = c.statuses ∨ statuses = c.statuses ++ [ok]) := by
  cases waiter with
  | flush caller => exact c.flushed_eq ok caller
  | direct => exact ⟨_, _, rfl, .inr rfl⟩
  | sync => exact ⟨_, _, rfl, .inr rfl⟩
  | closeOther chunk => exact ⟨_, _, rfl, .inl rfl⟩
  | closeLast => exact ⟨_, _, rfl, .inl rfl⟩

@[simp] theorem file_flushed : (c.flushed ok caller).file = c.file := by
  obtain ⟨_, _, heq, -⟩ := c.flushed_eq ok caller
  rw [heq]

@[simp] theorem negative_flushed : (c.flushed ok caller).negative = c.negative := by
  obtain ⟨_, _, heq, -⟩ := c.flushed_eq ok caller
  rw [heq]

@[simp] theorem failedAt_flushed : (c.flushed ok caller).failedAt = c.failedAt := by
  obtain ⟨_, _, heq, -⟩ := c.flushed_eq ok caller
  rw [heq]

@[simp] theorem file_waited : (c.waited ok waiter).file = c.file := by
  obtain ⟨_, _, heq, -⟩ := c.waited_eq ok waiter
  rw [heq]

@[simp] theorem negative_waited : (c.waited ok waiter).negative = c.negative := by
  obtain ⟨_, _, heq, -⟩ := c.waited_eq ok waiter
  rw [heq]

@[simp] theorem failedAt_waited : (c.waited ok waiter).failedAt = c.failedAt := by
  obtain ⟨_, _, heq, -⟩ := c.waited_eq ok waiter
  rw [heq]

/-- Where the status is not dropped, the call that waited returns it. -/
theorem statuses_waited_false (heard : waiter.drops = false) :
    (c.waited false waiter).statuses = c.statuses ++ [false] := by
  cases waiter with
  | flush caller =>
      cases caller with
      | client => rfl
      | append rest copySize => rfl
      | sync => simp [Waiter.drops] at heard
  | direct => rfl
  | sync => rfl
  | closeOther chunk => simp [Waiter.drops] at heard
  | closeLast => simp [Waiter.drops] at heard

end Config

section Steps

variable {c c' : Config} {event : Event}

/-- Only the kernel makes a completion negative. -/
theorem Step.negative_eq (step : Step c event c') (kernel : event ≠ .fault)
    (positive : event = .consume → c.negative = false) : c'.negative = c.negative := by
  cases step with
  | faults => exact absurd rfl kernel
  | consumesNegative here some negative => exact absurd negative (by simp [positive rfl])
  | consumesTarget here target this => simp [Config.consumed, this]
  | consumesOther here some not this => exact this.symm
  | flushEmpty => simp
  | flushFree => simp [Config.accepted]
  | flushRefused => simp [Config.refused, Config.fails]
  | _ => rfl

/-- **Only `Append` writes to a chunk**, the one that is filled. -/
theorem Step.chunks (step : Step c event c') {b : Bool}
    (changed : c'.file.chunks b ≠ c.file.chunks b) :
    (∃ data, c.place = .append data) ∧ b = c.file.current := by
  have hcopy : ∀ data, (c.file.copyIn data).chunks b ≠ c.file.chunks b → b = c.file.current := by
    intro data hne
    by_contra hb
    exact hne (by simp [File.copyIn, Function.update_of_ne hb])
  cases step with
  | buffered here all => exact ⟨⟨_, here⟩, hcopy _ changed⟩
  | overflows here left => exact ⟨⟨_, here⟩, hcopy _ changed⟩
  | executes hexec => exact absurd (congrArg (fun f => f.chunks b) hexec.toBuffer) changed
  | consumesNegative | consumesTarget => exact absurd (by simp [Config.consumed, File.consume]) changed
  | flushEmpty => exact absurd (by simp) changed
  | flushFree => exact absurd (by simp [Config.accepted]; rfl) changed
  | flushRefused => exact absurd (by simp [Config.refused]; rfl) changed
  | _ => exact absurd rfl changed

end Steps

/-! ## The protocol of the chunks -/

/-- What holds of the file while a tag is waited for. -/
structure Awaits (f : File) (tag : Tag) : Prop extends Ring f where
  here : tag ∈ f.outstanding
  only : ∀ t ∈ f.outstanding, t = tag ∨ t = .chunk (!f.current)

/-- What holds of the file when the ring is empty. -/
structure Empty (f : File) : Prop extends Ring f where
  none : f.outstanding = []

/-- What a waiter relies on, besides the tag. -/
def Waiter.Holds (f : File) (tag : Tag) : Waiter → Prop
  | .closeOther chunk => tag = .chunk (!f.current) ∧ chunk = f.chunkPos
  | .closeLast => tag = .chunk (!f.current)
  | _ => True

/-- **The protocol of the chunks**, place by place. -/
def Place.Holds (f : File) : Place → Prop
  | .wait tag waiter => Awaits f tag ∧ waiter.Holds f tag
  | .closeSubmit chunk => Empty f ∧ chunk = f.chunkPos
  | .closeFd | .closed => Empty f
  | _ => Resting f

section Protocol

variable {f f' : File} {tag : Tag}

theorem Resting.only (h : Resting f) : ∀ t ∈ f.outstanding, t = .chunk (!f.current) := by
  intro t ht
  cases t with
  | chunk c =>
      by_cases hc : c = f.current
      · subst hc
        exact absurd ht ((h.ready _).mp h.current)
      · rw [Bool.eq_not_of_ne hc]
  | sync => exact absurd ht h.sync
  | large => exact absurd ht h.large

theorem Ring.resting (h : Ring f) (only : ∀ t ∈ f.outstanding, t = .chunk (!f.current)) :
    Resting f :=
  .of_ring h (fun hmem => by simpa using only _ hmem) (fun hmem => by simpa using only _ hmem)
    fun hmem => by simpa using only _ hmem

theorem Empty.resting (h : Empty f) : Resting f :=
  h.toRing.resting fun t ht => by simp [h.none] at ht

/-- The ring is empty at rest when the other chunk is ready too. -/
theorem Resting.empty (h : Resting f) (free : f.ready (!f.current) = true) : Empty f where
  toRing := h.toRing
  none := by
    rw [List.eq_nil_iff_forall_not_mem]
    intro t ht
    exact (h.ready _).mp free (h.only t ht ▸ ht)

theorem Place.Holds.ring {place : Place} (h : place.Holds f) : Ring f := by
  cases place with
  | wait tag waiter => exact h.1.toRing
  | closeSubmit chunk => exact h.1.toRing
  | closeFd => exact Empty.toRing h
  | closed => exact Empty.toRing h
  | _ => exact Resting.toRing h

/-- A request that is completed is outstanding still. -/
theorem outstanding_perm {before after : List Request} {r : Request}
    (inFlight : f.inFlight = before ++ r :: after) :
    ((before ++ after).map Request.tag ++ (f.cq ++ [r.tag])).Perm f.outstanding := by
  simp only [File.outstanding, inFlight, List.map_append, List.map_cons, List.append_assoc]
  refine List.Perm.append_left _ ?_
  rw [← List.append_assoc]
  exact List.perm_append_comm

/-- The kernel changes nothing that the protocol is about. -/
theorem Place.Holds.of_perm {place : Place} (h : place.Holds f) (buffer : f'.toBuffer = f.toBuffer)
    (ready : f'.ready = f.ready) (perm : f'.outstanding.Perm f.outstanding) : place.Holds f' := by
  have hempty : Empty f → Empty f' := fun h =>
    ⟨h.toRing.of_perm buffer ready perm, List.perm_nil.mp (h.none ▸ perm)⟩
  cases place with
  | wait tag waiter =>
      obtain ⟨hawaits, hwaiter⟩ := h
      refine ⟨⟨hawaits.toRing.of_perm buffer ready perm, perm.mem_iff.mpr hawaits.here,
        fun t ht => ?_⟩, ?_⟩
      · rw [buffer]
        exact hawaits.only t (perm.mem_iff.mp ht)
      · cases waiter with
        | closeOther chunk => simpa only [Waiter.Holds, buffer] using hwaiter
        | closeLast => simpa only [Waiter.Holds, buffer] using hwaiter
        | flush caller => trivial
        | direct => trivial
        | sync => trivial
  | closeSubmit chunk => exact ⟨hempty h.1, by rw [buffer]; exact h.2⟩
  | closeFd => exact hempty h
  | closed => exact hempty h
  | idle => exact Resting.of_perm h buffer ready perm
  | append data => exact Resting.of_perm h buffer ready perm
  | flush caller => exact Resting.of_perm h buffer ready perm
  | direct rest copySize => exact Resting.of_perm h buffer ready perm
  | fsync => exact Resting.of_perm h buffer ready perm
  | close => exact Resting.of_perm h buffer ready perm

/-- Behind a consumption, a tag that was among the completions is not in the ring. -/
theorem Ring.notMem_consume (h : Ring f) (target : tag ∈ f.cq) : tag ∉ f.consume.outstanding := by
  rw [File.outstanding, File.consume, List.append_nil]
  exact fun hmem => List.disjoint_of_nodup_append h.nodup hmem target

/-- A wait that has found its tag leaves the file at rest. -/
theorem Awaits.resting (h : Awaits f tag) (target : tag ∈ f.cq) : Resting f.consume :=
  h.toRing.consume.resting fun t ht =>
    (h.only t (outstanding_consume_subset f ht)).resolve_left fun heq =>
      h.toRing.notMem_consume target (heq ▸ ht)

/-- A wait for the other chunk leaves the ring empty. -/
theorem Awaits.empty (h : Awaits f tag) (other : tag = .chunk (!f.current)) (target : tag ∈ f.cq) :
    Empty f.consume where
  toRing := h.toRing.consume
  none := by
    rw [List.eq_nil_iff_forall_not_mem]
    intro t ht
    have heq : t = tag := by
      rcases h.only t (outstanding_consume_subset f ht) with heq | heq
      · exact heq
      · rw [heq, other]
    exact h.toRing.notMem_consume target (heq ▸ ht)

/-- A wait goes on while its tag is not found. -/
theorem Awaits.consume (h : Awaits f tag) (not : tag ∉ f.cq) : Awaits f.consume tag where
  toRing := h.toRing.consume
  here := by
    rw [File.outstanding, File.consume, List.append_nil]
    exact (List.mem_append.mp h.here).resolve_right not
  only := fun t ht => h.only t (outstanding_consume_subset f ht)

/-- A request that is not about a chunk is waited for at rest. -/
theorem Resting.awaits {r : Request} (h : Resting f) (ring : Ring f')
    (inFlight : f'.inFlight = f.inFlight ++ [r]) (cq : f'.cq = f.cq)
    (current : f'.current = f.current) : Awaits f' r.tag where
  toRing := ring
  here := by
    rw [File.outstanding, inFlight, cq, mem_submit]
    exact .inl rfl
  only := fun t ht => by
    rw [File.outstanding, inFlight, cq, mem_submit] at ht
    rw [current]
    exact ht.imp_right (h.only t)

/-- Behind `SubmitIO` only the two chunks are in the ring. -/
theorem Resting.mem_submitIo (h : Resting f) {t : Tag} (mem : t ∈ f.submitIo.outstanding) :
    t = .chunk f.submitIo.current ∨ t = .chunk (!f.submitIo.current) := by
  rw [current_submitIo, Bool.not_not]
  rw [File.outstanding, File.submitIo, mem_submit] at mem
  rcases mem with rfl | mem
  · exact .inr rfl
  · exact .inl (h.only t mem)

/-- `Flush` waits for the chunk that is filled next, where it is not ready. -/
theorem Resting.flushBusy (h : Resting f) (busy : f.submitIo.ready f.submitIo.current = false) :
    Awaits f.submitIo (.chunk f.submitIo.current) where
  toRing := h.toRing.submitIo h.current
  here := by
    by_contra hnot
    rw [((h.toRing.submitIo h.current).ready _).mpr hnot] at busy
    exact absurd busy (by simp)
  only := fun _ ht => h.mem_submitIo ht

theorem Resting.flushFree (h : Resting f) (free : f.submitIo.ready f.submitIo.current = true) :
    Resting f.submitIo :=
  have hring := h.toRing.submitIo h.current
  hring.resting fun _ ht => (h.mem_submitIo ht).resolve_left fun heq =>
    (hring.ready _).mp free (heq ▸ ht)

/-- The last chunk is alone in the ring. -/
theorem Empty.submits (h : Empty f) :
    Awaits f.submitIo (.chunk f.current) ∧ .chunk f.current = Tag.chunk (!f.submitIo.current) := by
  have htag : Tag.chunk f.current = .chunk (!f.submitIo.current) := by
    rw [current_submitIo, Bool.not_not]
  refine ⟨⟨h.toRing.submitIo h.resting.current, ?_, fun t ht => ?_⟩, htag⟩
  · rw [File.outstanding, File.submitIo, mem_submit]
    exact .inl rfl
  · rw [File.outstanding, File.submitIo, mem_submit, h.none] at ht
    exact .inl (ht.resolve_right (List.not_mem_nil))

end Protocol

/-! ## Steps without a lost failure -/

/-- **What holds of a configuration** as long as no failure has been consumed or refused. -/
structure Sound (c : Config) : Prop where
  queued : c.queued = []
  holds : c.place.Holds c.file
  isOpen : c.place ≠ .closed → c.file.isOpen = true
  pending : c.negative = true → c.file.cq ≠ []

section Sound

variable {c c' : Config} {event : Event}

theorem sound_new : Sound .new where
  queued := rfl
  holds := resting_new
  isOpen := fun _ => rfl
  pending := fun h => absurd h (by simp [Config.new])

theorem Sound.drained (h : Sound c) : c.drained = c.file := by
  rw [Config.drained, h.queued, List.append_nil]

/-- `Flush` returns to a caller at rest. -/
theorem Sound.flushed (queued : c.queued = []) (resting : Resting c.file)
    (isOpen : c.file.isOpen = true) (pending : c.negative = true → c.file.cq ≠ [])
    (caller : FlushCaller) : Sound (c.flushed true caller) := by
  cases caller with
  | client => exact ⟨queued, resting, fun _ => isOpen, pending⟩
  | append rest copySize =>
      rw [Config.flushed, if_pos rfl]
      split
      · exact ⟨queued, resting, fun _ => isOpen, pending⟩
      · exact ⟨queued, resting, fun _ => isOpen, pending⟩
  | sync => exact ⟨queued, resting, fun _ => isOpen, pending⟩

/-- `ProcessCompletions` returns to a caller whose tag it has found. -/
theorem Sound.waited (h : Sound c) {tag : Tag} {waiter : Waiter} (here : c.place = .wait tag waiter)
    (target : tag ∈ c.file.cq) : Sound (c.consumed.waited true waiter) := by
  have hholds := h.holds
  rw [here] at hholds
  obtain ⟨hawaits, hwaiter⟩ := hholds
  have hopen : c.consumed.file.isOpen = true := h.isOpen (by simp [here])
  have hpending : c.consumed.negative = true → c.consumed.file.cq ≠ [] :=
    fun hneg => absurd hneg (by simp [Config.consumed])
  cases waiter with
  | flush caller =>
      exact Sound.flushed (c := c.consumed) h.queued (hawaits.resting target) hopen hpending caller
  | direct => exact ⟨h.queued, hawaits.resting target, fun _ => hopen, hpending⟩
  | sync => exact ⟨h.queued, hawaits.resting target, fun _ => hopen, hpending⟩
  | closeOther chunk =>
      exact ⟨h.queued, ⟨hawaits.empty hwaiter.1 target, hwaiter.2⟩, fun _ => hopen, hpending⟩
  | closeLast => exact ⟨h.queued, hawaits.empty hwaiter target, fun _ => hopen, hpending⟩

/-- **A step keeps the protocol**, unless a submission is refused or a negative result consumed. -/
theorem Sound.step (h : Sound c) (step : Step c event c') (accepted : event ≠ .refuse)
    (positive : event = .consume → c.negative = false) : Sound c' := by
  have hholds := h.holds
  have hopen : ∀ {place : Place}, c.place = place → place ≠ .closed → c.file.isOpen = true :=
    fun hplace hne => h.isOpen (hplace ▸ hne)
  cases step with
  -- the kernel completes a request: it leaves the ring for the completion queue
  | @executes f hexec =>
      refine ⟨h.queued, h.holds.of_perm hexec.toBuffer hexec.ready hexec.outstanding, ?_, ?_⟩
      · intro hne
        rw [hexec.toBuffer]
        exact h.isOpen hne
      · obtain ⟨before, r, after, -, rfl⟩ := hexec
        exact fun _ => List.append_ne_nil_of_right_ne_nil _ (List.cons_ne_nil _ _)
  | @faults before after r inFlight =>
      refine ⟨h.queued, h.holds.of_perm rfl rfl ?_, h.isOpen,
        fun _ => List.append_ne_nil_of_right_ne_nil _ (List.cons_ne_nil _ _)⟩
      exact outstanding_perm inFlight
  | calls idle call =>
      rw [idle] at hholds
      refine ⟨h.queued, ?_, fun _ => hopen idle (by simp), h.pending⟩
      cases call with
      | append data => exact hholds
      | flush => exact hholds
      | sync => exact hholds
  | closes idle =>
      rw [idle] at hholds
      exact ⟨h.queued, hholds, fun _ => hopen idle (by simp), h.pending⟩
  | @buffered data here all =>
      rw [here] at hholds
      exact ⟨h.queued, Resting.copyIn hholds _, fun _ => hopen here (by simp), h.pending⟩
  | @overflows data here left =>
      rw [here] at hholds
      exact ⟨h.queued, Resting.copyIn hholds _, fun _ => hopen here (by simp), h.pending⟩
  -- the direct path hands over the rest of the data, and waits with the queue drained
  | @directSubmits rest copySize here =>
      rw [here] at hholds
      rw [h.drained]
      exact ⟨rfl, ⟨hholds.awaits (hholds.toRing.submitLarge hholds.large rest copySize) rfl rfl rfl,
        trivial⟩, fun _ => hopen here (by simp), h.pending⟩
  -- the refused submissions are the first exception of the statement
  | directRefused here => exact absurd rfl accepted
  | @flushEmpty caller here empty =>
      rw [here] at hholds
      exact Sound.flushed h.queued hholds (hopen here (by simp)) h.pending caller
  -- the buffer is submitted, and the next chunk is free or has to be waited for
  | @flushFree caller here filled free =>
      rw [here] at hholds
      rw [h.drained] at free ⊢
      exact Sound.flushed (c := c.accepted c.file.submitIo) rfl (hholds.flushFree free)
        (hopen here (by simp)) h.pending caller
  | @flushBusy caller here filled busy =>
      rw [here] at hholds
      rw [h.drained] at busy ⊢
      exact ⟨rfl, ⟨hholds.flushBusy busy, trivial⟩, fun _ => hopen here (by simp), h.pending⟩
  | flushRefused here filled => exact absurd rfl accepted
  | fsyncSubmits here =>
      rw [here] at hholds
      rw [h.drained]
      exact ⟨rfl, ⟨hholds.awaits (r := .fsync) (hholds.toRing.submitFsync hholds.sync) rfl rfl rfl,
        trivial⟩, fun _ => hopen here (by simp), h.pending⟩
  | fsyncRefused here => exact absurd rfl accepted
  -- a negative result is the second exception
  | consumesNegative here some negative => exact absurd negative (by simp [positive rfl])
  | consumesTarget here target _ => exact h.waited here target
  -- completions of other requests are taken on the way to the one that is waited for
  | @consumesOther tag waiter here some not _ =>
      rw [here] at hholds
      refine ⟨h.queued, ?_, fun _ => hopen here (by simp), fun hneg => absurd hneg (by simp [Config.consumed])⟩
      rw [Config.consumed, here]
      exact ⟨hholds.1.consume not, hholds.2⟩
  | closeAgain here shut => exact absurd (hopen here (by simp)) (by simp [shut])
  | closeFree here isOpen free =>
      rw [here] at hholds
      exact ⟨h.queued, ⟨Resting.empty hholds free, rfl⟩, fun _ => isOpen, h.pending⟩
  | closeBusy here isOpen busy =>
      rw [here] at hholds
      refine ⟨h.queued, ⟨⟨hholds.toRing, ?_, fun t ht => .inr (Resting.only hholds t ht)⟩,
        maskChunk_succ _, rfl⟩, fun _ => isOpen, h.pending⟩
      rw [maskChunk_succ]
      -- a chunk that is not ready is in flight: its flag would say free
      by_contra hnot
      rw [(hholds.toRing.ready _).mpr hnot] at busy
      exact absurd busy (by simp)
  | closeEmpty here empty =>
      rw [here] at hholds
      exact ⟨h.queued, hholds.1, fun _ => hopen here (by simp), h.pending⟩
  -- `Close` submits the last chunk once all the others are free
  | @closeSubmits chunk here filled =>
      rw [here] at hholds
      obtain ⟨hempty, rfl⟩ := hholds
      rw [h.drained]
      exact ⟨rfl, ⟨hempty.submits.1, hempty.submits.2⟩, fun _ => hopen here (by simp), h.pending⟩
  | closeRefused here filled => exact absurd rfl accepted
  | shuts here =>
      rw [here] at hholds
      exact ⟨h.queued, ⟨⟨hholds.nodup, hholds.ready, hholds.chunks, hholds.pos⟩, hholds.none⟩,
        fun hne => absurd rfl hne, h.pending⟩

/-- Without failures no completion is negative. -/
theorem sound_of_faultless (reached : Reaches Faultless c) : Sound c ∧ c.negative = false := by
  induction reached with
  | new => exact ⟨sound_new, rfl⟩
  | @step c c' event reached meets step ih =>
      exact ⟨ih.1.step step meets.2 fun _ => ih.2,
        (step.negative_eq meets.1 fun _ => ih.2).trans ih.2⟩

/-- **The protocol of the two chunks.**  In every run without failures a chunk is written only while
its write is not in the ring, every tag is in the ring at most once, every wait is for a request
that is in the ring, and `Close` closes the descriptor on an empty ring. -/
theorem chunks_protected (reached : Reaches Faultless c) :
    (∀ event c', Step c event c' → ∀ b, c'.file.chunks b ≠ c.file.chunks b →
      .chunk b ∉ c.file.outstanding) ∧
    c.file.outstanding.Nodup ∧
    (∀ tag waiter, c.place = .wait tag waiter → tag ∈ c.file.outstanding) ∧
    (c.place = .closeFd → c.file.outstanding = []) := by
  have hholds := (sound_of_faultless reached).1.holds
  refine ⟨fun event c' step b hchanged => ?_, ?_, fun tag waiter here => ?_, fun here => ?_⟩
  · obtain ⟨⟨data, here⟩, rfl⟩ := step.chunks hchanged
    rw [here] at hholds
    exact (hholds.ready _).mp hholds.current
  · exact hholds.ring.nodup
  · rw [here] at hholds
    exact hholds.1.here
  · rw [here] at hholds
    exact hholds.none

/-- One byte is appended, and `Sync` waits for its `fsync`. -/
def oneByteSync : Config where
  file := (UringFile.new.copyIn (writeData [1])).submitIo.submitFsync
  queued := []
  negative := false
  place := .wait .sync .sync
  statuses := [true]
  failedAt := none

theorem reaches_oneByteSync {cond : Config → Event → Prop} (advances : ∀ c, cond c .advance) :
    Reaches cond oneByteSync := by
  have hcall := Reaches.new.step (advances _) (.calls rfl (.append [1]))
  have happend := hcall.step (advances _) (.buffered (rfl : _ = Place.append [1]) (by decide))
  have hsync := happend.step (advances _) (.calls rfl .sync)
  have hflush := hsync.step (advances _) (.flushFree (rfl : _ = Place.flush .sync) (by decide)
    (by decide))
  have hfsync := hflush.step (advances _) (.fsyncSubmits rfl)
  exact hfsync

/-- The protocol, with a chunk and an `fsync` in the ring. -/
theorem chunks_protected_oneByteSync :
    (∀ event c', Step oneByteSync event c' → ∀ b, c'.file.chunks b ≠ oneByteSync.file.chunks b →
      .chunk b ∉ oneByteSync.file.outstanding) ∧
    oneByteSync.file.outstanding.Nodup ∧
    (∀ tag waiter, oneByteSync.place = .wait tag waiter → tag ∈ oneByteSync.file.outstanding) ∧
    (oneByteSync.place = .closeFd → oneByteSync.file.outstanding = []) :=
  chunks_protected (reaches_oneByteSync fun _ => ⟨by simp, by simp⟩)

end Sound

/-! ## Who hears of a failure -/

/-- A call behind the first failure was not `OK`. -/
def Config.Reported (c : Config) : Prop := ∃ n, c.failedAt = some n ∧ false ∈ c.statuses.drop n

/-- A failure is on its way: its completion is not consumed yet. -/
structure Tracked (c : Config) : Prop extends Sound c where
  negative : c.failedAt ≠ none → c.negative = true
  returned : ∀ n, c.failedAt = some n → n ≤ c.statuses.length
  failed : c.negative = true → c.failedAt ≠ none

section Reported

variable {c c' : Config} {event : Event}

/-- The first failure is remembered. -/
theorem Step.failedAt (step : Step c event c') {n : ℕ} (failed : c.failedAt = some n) :
    c'.failedAt = some n := by
  have hfails : c.fails.failedAt = some n := by rw [Config.fails, failed]; rfl
  cases step with
  | faults => exact hfails
  | directRefused => exact hfails
  | flushRefused => simpa [Config.refused] using hfails
  | fsyncRefused => exact hfails
  | closeRefused => exact hfails
  | consumesNegative | consumesTarget => simpa [Config.consumed] using failed
  | flushEmpty => simpa using failed
  | flushFree => simpa [Config.accepted] using failed
  | _ => exact failed

/-- Where no request fails, no failure is noted. -/
theorem Step.failedAt_eq (step : Step c event c') (kernel : event ≠ .fault)
    (accepted : event ≠ .refuse) : c'.failedAt = c.failedAt := by
  cases step with
  | faults => exact absurd rfl kernel
  | directRefused | flushRefused | fsyncRefused | closeRefused => exact absurd rfl accepted
  | consumesNegative | consumesTarget => simp [Config.consumed]
  | flushEmpty => simp
  | flushFree => simp [Config.accepted]
  | _ => rfl

/-- Statuses are only added. -/
theorem Step.statuses (step : Step c event c') : c.statuses <+: c'.statuses := by
  have hadds : ∀ {l : List Bool} {ok : Bool}, l = c.statuses ∨ l = c.statuses ++ [ok] →
      c.statuses <+: l := by
    rintro l ok (rfl | rfl)
    · exact List.prefix_refl _
    · exact List.prefix_append _ _
  have hreturn : ∀ ok, c.statuses <+: c.statuses ++ [ok] := fun ok => List.prefix_append _ _
  cases step with
  | buffered => exact hreturn true
  | directRefused => exact hreturn false
  | fsyncRefused => exact hreturn false
  | closeAgain => exact hreturn true
  | shuts => exact hreturn true
  | @flushEmpty caller =>
      obtain ⟨_, _, heq, hstatuses⟩ := c.flushed_eq true caller
      rw [heq]
      exact hadds hstatuses
  | @flushFree caller =>
      obtain ⟨_, _, heq, hstatuses⟩ := (c.accepted c.drained.submitIo).flushed_eq true caller
      rw [heq]
      exact hadds hstatuses
  | @flushRefused caller =>
      obtain ⟨_, _, heq, hstatuses⟩ :=
        (c.refused c.file.submitIo c.file.chunkWrite).flushed_eq true caller
      rw [heq]
      exact hadds hstatuses
  | @consumesNegative tag waiter =>
      obtain ⟨_, _, heq, hstatuses⟩ := c.consumed.waited_eq false waiter
      rw [heq]
      exact hadds hstatuses
  | @consumesTarget tag waiter =>
      obtain ⟨_, _, heq, hstatuses⟩ := c.consumed.waited_eq true waiter
      rw [heq]
      exact hadds hstatuses
  | _ => exact List.prefix_refl _

theorem Config.Reported.step (h : c.Reported) (step : Step c event c') : c'.Reported := by
  obtain ⟨n, hfailed, hmem⟩ := h
  obtain ⟨more, hmore⟩ := step.statuses
  refine ⟨n, step.failedAt hfailed, ?_⟩
  rw [← hmore, List.drop_append]
  exact List.mem_append_left _ hmem

/-- A call that returns something else than `OK` behind a failure reports it. -/
theorem Config.Reported.of_returns {n : ℕ} (failed : c'.failedAt = some n)
    (returned : n ≤ c.statuses.length) (statuses : c'.statuses = c.statuses ++ [false]) :
    c'.Reported := by
  refine ⟨n, failed, ?_⟩
  rw [statuses, List.drop_append_of_le_length returned]
  exact List.mem_append_right _ (List.mem_singleton.mpr rfl)

/-- **A step loses no failure** where it is heard of. -/
theorem Tracked.step (h : Tracked c) (heard : Heard c event) (step : Step c event c') :
    Tracked c' ∨ c'.Reported := by
  have hfails : ∃ n, c.fails.failedAt = some n ∧ n ≤ c.statuses.length := by
    cases hfailed : c.failedAt with
    | none => exact ⟨c.statuses.length, by rw [Config.fails, hfailed]; rfl, le_rfl⟩
    | some n => exact ⟨n, by rw [Config.fails, hfailed]; rfl, h.returned n hfailed⟩
  by_cases hfault : event = .fault
  · -- The completion is in the ring.
    subst hfault
    have hsound := h.toSound.step step (by simp) (by simp)
    cases step with
    | faults inFlight =>
        obtain ⟨n, hn, hle⟩ := hfails
        refine .inl ⟨hsound, fun _ => rfl, fun m hm => ?_, fun _ hnone => ?_⟩
        · rw [hn, Option.some.injEq] at hm
          rwa [← hm]
        · simp [hn] at hnone
  by_cases hrefuse : event = .refuse
  · -- A refused submission that is heard of is that of a direct write or of an `fsync`.
    subst hrefuse
    obtain ⟨n, hn, hle⟩ := hfails
    cases step with
    | directRefused => exact .inr (.of_returns hn hle rfl)
    | fsyncRefused => exact .inr (.of_returns hn hle rfl)
    | flushRefused here => exact absurd here (heard.1 _)
    | closeRefused here => exact absurd here (heard.2 _)
  have hfailedAt := step.failedAt_eq hfault hrefuse
  by_cases hconsume : event = .consume ∧ c.negative = true
  · obtain ⟨rfl, hneg⟩ := hconsume
    obtain ⟨n, hn⟩ := Option.ne_none_iff_exists'.mp (h.failed hneg)
    cases step with
    | consumesNegative here some negative =>
        exact .inr (.of_returns (hfailedAt.trans hn) (h.returned n hn)
          (Config.statuses_waited_false _ _ (heard hneg _ _ here)))
    | consumesTarget here target positive => exact absurd hneg (by simp [positive])
    | consumesOther here some not positive => exact absurd hneg (by simp [positive])
  · have hpositive : event = .consume → c.negative = false := fun hevent =>
      Bool.eq_false_iff.mpr fun hneg => hconsume ⟨hevent, hneg⟩
    have hnegative := step.negative_eq hfault hpositive
    refine .inl ⟨h.toSound.step step hrefuse hpositive, ?_, fun n hn => ?_, ?_⟩
    · rw [hfailedAt, hnegative]
      exact h.negative
    · exact (h.returned n (hfailedAt.symm.trans hn)).trans step.statuses.length_le
    · rw [hfailedAt, hnegative]
      exact h.failed

theorem tracked_or_reported (reached : Reaches Heard c) : Tracked c ∨ c.Reported := by
  induction reached with
  | new =>
      refine .inl ⟨sound_new, fun h => absurd rfl h, fun n h => ?_, fun h => ?_⟩
      · simp [Config.new] at h
      · simp [Config.new] at h
  | step reached meets step ih =>
      rcases ih with htracked | hreported
      · exact htracked.step meets step
      · exact .inr (hreported.step step)

/-- **A failure is reported.**  In every run in which each failure is heard of, some call that
returns behind the first failure is not `OK`, at the latest `Close`. -/
theorem failure_reported (reached : Reaches Heard c) (closed : c.place = .closed) {n : ℕ}
    (failed : c.failedAt = some n) : false ∈ c.statuses.drop n := by
  rcases tracked_or_reported reached with htracked | ⟨m, hm, hmem⟩
  · have hholds := htracked.holds
    rw [closed] at hholds
    have hcq := htracked.pending (htracked.negative (by simp [failed]))
    exact absurd (List.append_eq_nil_iff.mp hholds.none).2 hcq
  · rw [failed, Option.some.injEq] at hm
    rwa [hm]

/-- The write fails while `Sync` waits, so `Sync` returns its failure. -/
theorem failure_reported_by_sync :
    ∃ c, Reaches Heard c ∧ c.place = .closed ∧ c.failedAt = some 1 ∧ false ∈ c.statuses.drop 1 := by
  have hadvance : ∀ {c c'}, Reaches Heard c → Step c .advance c' → Reaches Heard c' :=
    fun {c c'} hreached hstep => @Reaches.step Heard c c' .advance hreached trivial hstep
  have hwait : Reaches Heard oneByteSync := reaches_oneByteSync fun _ => trivial
  have hfault := hwait.step (show Heard _ .fault from trivial)
    (.faults (rfl : _ = [] ++ _ :: [Request.fsync]))
  have hconsume := hfault.step (by rintro - tag waiter ⟨⟩; rfl)
    (.consumesNegative rfl (List.cons_ne_nil _ _) rfl)
  have hclose := hadvance hconsume (.closes rfl)
  have hfree := hadvance hclose (.closeFree rfl rfl (by decide))
  have hempty := hadvance hfree (.closeEmpty rfl rfl)
  have hshut := hadvance hempty (.shuts rfl)
  exact ⟨_, hshut, rfl, rfl, failure_reported hshut rfl rfl⟩

/-- **The calls of `BuildTable` are `OK` on a file whose byte was not written.**  The `fsync` of
`Sync` completes before the write does; the write then fails, and `Close` drops its status. -/
theorem failure_missed :
    ¬ ∀ c n, Reaches (fun _ _ => True) c → c.place = .closed → c.failedAt = some n →
      false ∈ c.statuses.drop n := by
  intro claim
  have hwait : Reaches (fun _ _ => True) oneByteSync := reaches_oneByteSync fun _ => trivial
  have hfsync := hwait.step trivial (.executes ⟨[_], .fsync, [], rfl, rfl⟩)
  have hsync := hfsync.step trivial (.consumesTarget rfl (by decide) rfl)
  have hfault := hsync.step trivial (.faults (rfl : _ = [] ++ _ :: []))
  have hclose := hfault.step trivial (.closes rfl)
  have hbusy := hclose.step trivial (.closeBusy rfl rfl (by decide))
  have hdrop := hbusy.step trivial (.consumesNegative rfl (List.cons_ne_nil _ _) rfl)
  have hempty := hdrop.step trivial (.closeEmpty rfl rfl)
  have hshut := hempty.step trivial (.shuts rfl)
  have hmem := claim _ 2 hshut rfl rfl
  exact absurd hmem (by decide)

end Reported

end UringFile

end Lsmkv
