import Lsmkv.UringFile

/-!
# What is in a file written through a ring

What `Append` took of a file is in three places: in the file itself, in writes that are under way,
and in the chunk that is filled.  `Tracks` says so position by position.  It is kept by everything
the kernel does, in any order, because every write that is under way carries the bytes of its own
positions (`Tracks.exec`).

The offset of the file is the number of bytes that went to the ring (`Exact`), until an append
takes the direct path.  From there on the offset is too small (`Bounded`), and as soon as another
byte is appended, the file ends up shorter than what was appended.  So the content of the closed
file is what was appended exactly when nothing is appended behind a direct write
(`UringFile.content_eq_iff`).

For `Sync` the question is which writes were executed when its `fsync` was.  The writes carry
different bytes (`Apart`), and the kernel can always leave the last chunk for later
(`Late`), so there is always a run in which a byte is not durable (`UringFile.synced_iff`).
-/

namespace Lsmkv

namespace UringFile

open ByteCode Overwrite Relation

/-! ## The bytes on their way -/

/-- **Where the bytes are** that `Append` took. -/
structure Tracks (given : Bytes) (f : File) : Prop where
  total : f.submitted + f.pos = given.length
  chunk : (f.chunks f.current).take f.pos = given.drop f.submitted
  ends : ∀ w, .write w ∈ f.inFlight → w.offset + w.size ≤ f.submitted
  carries : ∀ w, .write w ∈ f.inFlight →
    w.data f.toBuffer = (given.drop w.offset).take w.size
  length : f.content.length ≤ f.submitted
  covered : ∀ i < f.submitted, (∃ w, .write w ∈ f.inFlight ∧ w.offset ≤ i ∧
    i < w.offset + w.size) ∨ f.content[i]? = given[i]?

/-- The offset is where the bytes belong that come next. -/
structure Exact (given : Bytes) (f : File) : Prop extends Tracks given f where
  offset : f.offset = f.submitted

/-- The chunk is empty. -/
structure Whole (given : Bytes) (f : File) : Prop extends Tracks given f where
  pos : f.pos = 0

section Tracks

variable {f f' : File} {given : Bytes}

theorem mem_write_append {w : Write} {l : List Request} {r : Request}
    (h : .write w ∈ l ++ [r]) : .write w ∈ l ∨ .write w = r := by
  rcases List.mem_append.mp h with h | h
  · exact .inl h
  · exact .inr (List.mem_singleton.mp h)

/-- What is left when a request is taken out was there before. -/
theorem mem_of_mem_removed {before after : List Request} {r x : Request}
    (h : x ∈ before ++ after) : x ∈ before ++ r :: after := by
  rw [List.mem_append, List.mem_cons]
  rcases List.mem_append.mp h with h | h
  · exact .inl h
  · exact .inr (.inr h)

theorem Tracks.le (h : Tracks given f) : f.submitted ≤ given.length := by
  have := h.total
  omega

/-- The kernel puts the bytes of a write where they belong. -/
theorem Tracks.exec (h : Tracks given f) (executes : Executes f f') : Tracks given f' := by
  have hbuffer := executes.toBuffer
  obtain ⟨before, r, after, hsplit, rfl⟩ := executes
  have hmem : ∀ {w : Write}, .write w ∈ before ++ after → .write w ∈ f.inFlight :=
    fun hw => hsplit ▸ mem_of_mem_removed hw
  cases r with
  | fsync =>
      refine ⟨h.total, h.chunk, fun w hw => h.ends w (hmem hw),
        fun w hw => h.carries w (hmem hw), h.length, fun i hi => ?_⟩
      rcases h.covered i hi with ⟨w, hw, hin⟩ | hcontent
      · refine .inl ⟨w, ?_, hin⟩
        rw [hsplit] at hw
        simpa using hw
      · exact .inr hcontent
  | write v =>
      have hv : .write v ∈ f.inFlight := by rw [hsplit]; simp
      have hends := h.ends v hv
      have hle := h.le
      have hdata := h.carries v hv
      have hlen : (v.data f.toBuffer).length = v.size := by
        rw [hdata, List.length_take, List.length_drop]
        omega
      refine ⟨h.total, h.chunk, fun w hw => h.ends w (hmem hw),
        fun w hw => h.carries w (hmem hw), ?_, fun i hi => ?_⟩
      · have := h.length
        simp only [File.perform, length_overwrite, hlen]
        exact max_le this hends
      · by_cases hhere : v.offset ≤ i ∧ i < v.offset + v.size
        · refine .inr ?_
          simp only [File.perform]
          rw [getElem?_overwrite_data _ _ _ _ hhere.1 (by omega), hdata, List.getElem?_take,
            if_pos (by omega), List.getElem?_drop, Nat.add_sub_cancel' hhere.1]
        rcases h.covered i hi with ⟨w, hw, hin⟩ | hcontent
        · refine .inl ⟨w, ?_, hin⟩
          rw [hsplit, List.mem_append, List.mem_cons] at hw
          rcases hw with hw | hw | hw
          · exact List.mem_append_left _ hw
          · exact absurd (Request.write.inj hw ▸ hin) hhere
          · exact List.mem_append_right _ hw
        · refine .inr ?_
          simp only [File.perform]
          by_cases hbefore : i < v.offset
          · rw [getElem?_overwrite_before _ _ _ _ hbefore, hcontent,
              List.getElem?_eq_getElem (by omega), Option.getD_some]
          · rw [getElem?_overwrite_behind _ _ _ _ (by omega), hcontent]

theorem Tracks.consume (h : Tracks given f) : Tracks given f.consume :=
  ⟨h.total, h.chunk, h.ends, h.carries, h.length, h.covered⟩

theorem Tracks.closeFd (h : Tracks given f) : Tracks given f.closeFd :=
  ⟨h.total, h.chunk, h.ends, h.carries, h.length, h.covered⟩

theorem Tracks.submitFsync (h : Tracks given f) : Tracks given f.submitFsync := by
  have hmem : ∀ {w : Write}, .write w ∈ f.submitFsync.inFlight → .write w ∈ f.inFlight := by
    intro w hw
    rcases mem_write_append hw with hw | hw
    · exact hw
    · simp at hw
  refine ⟨h.total, h.chunk, fun w hw => h.ends w (hmem hw), fun w hw => h.carries w (hmem hw),
    h.length, fun i hi => ?_⟩
  rcases h.covered i hi with ⟨w, hw, hin⟩ | hcontent
  · exact .inl ⟨w, List.mem_append_left _ hw, hin⟩
  · exact .inr hcontent

/-- A chunk is submitted where the offset is right. -/
theorem Exact.submitIo (h : Exact given f) : Exact given f.submitIo where
  total := by
    have := h.total
    simp only [File.submitIo]
    omega
  chunk := by
    have := h.total
    simp only [File.submitIo, List.take_zero]
    exact (List.drop_eq_nil_of_le (by omega)).symm
  ends := by
    intro w hw
    have hoffset := h.offset
    rcases mem_write_append hw with hw | hw
    · have := h.ends w hw
      simp only [File.submitIo]
      omega
    · obtain rfl : w = _ := Request.write.inj hw
      simp only [File.submitIo]
      omega
  carries := by
    intro w hw
    rcases mem_write_append hw with hw | hw
    · exact h.carries w hw
    · obtain rfl : w = _ := Request.write.inj hw
      have htotal := h.total
      have hlen : f.pos = (given.drop f.submitted).length := by
        rw [List.length_drop]
        omega
      show (f.chunks f.current).take f.pos = (given.drop f.offset).take f.pos
      rw [h.chunk, h.offset, hlen, List.take_length]
  length := by
    have := h.length
    simp only [File.submitIo]
    omega
  covered := by
    intro i hi
    -- what the buffer held is in the request that is submitted
    by_cases hold : i < f.submitted
    · rcases h.covered i hold with ⟨w, hw, hin⟩ | hcontent
      · exact .inl ⟨w, List.mem_append_left _ hw, hin⟩
      · exact .inr hcontent
    · refine .inl ⟨_, List.mem_append_right _ (List.mem_singleton_self _), ?_⟩
      have hoffset := h.offset
      simp only [File.submitIo] at hi ⊢
      omega
  offset := by
    have := h.offset
    simp only [File.submitIo]
    omega

theorem stable_exact (given : Bytes) : Stable (Exact given) where
  exec := fun executes h => ⟨h.toTracks.exec executes, by rw [executes.toBuffer]; exact h.offset⟩
  consume := fun h => ⟨h.toTracks.consume, h.offset⟩
  submitIo := fun _ _ h => h.submitIo
  submitFsync := fun h => ⟨h.toTracks.submitFsync, h.offset⟩
  closeFd := fun h => ⟨h.toTracks.closeFd, h.offset⟩

theorem stable_whole (given : Bytes) : Stable (Whole given) where
  exec := fun executes h => ⟨h.toTracks.exec executes, by rw [executes.toBuffer]; exact h.pos⟩
  consume := fun h => ⟨h.toTracks.consume, h.pos⟩
  submitIo := fun _ filled h => absurd h.pos filled
  submitFsync := fun h => ⟨h.toTracks.submitFsync, h.pos⟩
  closeFd := fun h => ⟨h.toTracks.closeFd, h.pos⟩

/-- A slice of what was given is there still when more is given. -/
theorem slice_append (more : Bytes) {first size : ℕ} (within : first + size ≤ given.length) :
    ((given ++ more).drop first).take size = (given.drop first).take size := by
  have hdrop : first ≤ given.length := by omega
  have htake : size ≤ (given.drop first).length := by
    rw [List.length_drop]
    omega
  rw [List.drop_append_of_le_length hdrop, List.take_append_of_le_length htake]

/-- What is in flight stays right when more is appended. -/
theorem Tracks.carries_append (h : Tracks given f) (data : Bytes) {w : Write}
    (hw : .write w ∈ f.inFlight) :
    w.data f.toBuffer = ((given ++ data).drop w.offset).take w.size := by
  have hends := h.ends w hw
  have hle := h.le
  rw [h.carries w hw, slice_append _ (by omega)]

theorem Tracks.covered_append (h : Tracks given f) (data : Bytes) {i : ℕ} (hi : i < f.submitted) :
    (∃ w, .write w ∈ f.inFlight ∧ w.offset ≤ i ∧ i < w.offset + w.size) ∨
      f.content[i]? = (given ++ data)[i]? := by
  have hle := h.le
  rw [List.getElem?_append_left (by omega)]
  exact h.covered i hi

/-- Bytes go into the chunk that is filled, and no write is about that chunk. -/
theorem Tracks.copyIn (h : Tracks given f) (resting : Resting f) (data : Bytes) :
    Tracks (given ++ data.take (f.copySize data)) (f.copyIn data) := by
  have hcopy : (data.take (f.copySize data)).length = f.copySize data := by
    rw [List.length_take, min_eq_left (copySize_le _ _)]
  have hsame : ∀ w, .write w ∈ f.inFlight →
      w.data (f.copyIn data).toBuffer = w.data f.toBuffer := by
    intro w hw
    have hout : w.tag ∈ f.outstanding :=
      List.mem_append_left _ (List.mem_map.mpr ⟨.write w, hw, rfl⟩)
    have hfree := (resting.ready _).mp resting.current
    obtain ⟨source, size, offset, first⟩ := w
    cases source with
    | caller data => rfl
    | chunk c =>
        have hc : c ≠ f.current := by
          rintro rfl
          exact hfree hout
        simp only [Write.data, File.copyIn, Function.update_of_ne hc]
  refine ⟨?_, ?_, h.ends, fun w hw => ?_, h.length, fun i hi => h.covered_append _ hi⟩
  · have := h.total
    rw [List.length_append, hcopy]
    simp only [File.copyIn]
    omega
  · have hlen : f.pos ≤ (f.chunks f.current).length := by
      rw [resting.chunks]
      exact resting.pos
    have htake := take_overwrite 0 (f.chunks f.current) f.pos (data.take (f.copySize data)) hlen
    rw [hcopy] at htake
    show (Function.update f.chunks f.current (overwrite 0 (f.chunks f.current) f.pos
        (data.take (f.copySize data))) f.current).take (f.pos + f.copySize data) =
      (given ++ _).drop f.submitted
    rw [Function.update_self, htake, h.chunk, List.drop_append_of_le_length h.le]
  · rw [hsame w hw]
    exact h.carries_append _ hw

theorem Exact.copyIn (h : Exact given f) (resting : Resting f) (data : Bytes) :
    Exact (given ++ data.take (f.copySize data)) (f.copyIn data) :=
  ⟨h.toTracks.copyIn resting data, h.offset⟩

/-- The direct write is submitted where the offset is right; behind it the offset is not. -/
theorem Exact.submitLarge (h : Exact given f) (empty : f.pos = 0) (rest : Bytes) (n : ℕ) :
    Whole (given ++ rest) (f.submitLarge rest n) where
  total := by
    have := h.total
    rw [List.length_append]
    simp only [File.submitLarge]
    omega
  chunk := by
    have htotal := h.total
    show (f.chunks f.current).take f.pos = (given ++ rest).drop (f.submitted + rest.length)
    rw [empty, List.take_zero, List.drop_eq_nil_of_le]
    rw [List.length_append]
    omega
  ends := by
    intro w hw
    have hoffset := h.offset
    rcases mem_write_append hw with hw | hw
    · have := h.ends w hw
      simp only [File.submitLarge]
      omega
    · obtain rfl : w = _ := Request.write.inj hw
      simp only [File.submitLarge]
      omega
  carries := by
    intro w hw
    rcases mem_write_append hw with hw | hw
    · exact h.carries_append rest hw
    · obtain rfl : w = _ := Request.write.inj hw
      have hlen : f.offset = given.length := by
        have := h.total
        have := h.offset
        omega
      show rest.take rest.length = ((given ++ rest).drop f.offset).take rest.length
      rw [hlen, List.drop_left]
  length := by
    have := h.length
    simp only [File.submitLarge]
    omega
  covered := by
    intro i hi
    -- the bytes before are where they were, and the others are in the new request
    by_cases hold : i < f.submitted
    · rcases h.covered_append rest hold with ⟨w, hw, hin⟩ | hcontent
      · exact .inl ⟨w, List.mem_append_left _ hw, hin⟩
      · exact .inr hcontent
    · refine .inl ⟨_, List.mem_append_right _ (List.mem_singleton_self _), ?_⟩
      have hoffset := h.offset
      simp only [File.submitLarge] at hi ⊢
      omega
  pos := empty

/-- **With nothing in flight, the file holds what was appended.** -/
theorem Tracks.content_eq (h : Tracks given f) (none : f.inFlight = []) (empty : f.pos = 0) :
    f.content = given := by
  have htotal := h.total
  refine List.ext_getElem? fun i => ?_
  by_cases hi : i < f.submitted
  · rcases h.covered i hi with ⟨w, hw, -⟩ | hcontent
    · simp [none] at hw
    · exact hcontent
  · have hlen := h.length
    rw [List.getElem?_eq_none (by omega), List.getElem?_eq_none (by omega)]

end Tracks

/-! ## Appends where the offset is right -/

section Appends

variable {f f' : File} {given data : Bytes}

/-- **An append that does not take the direct path** leaves the offset right. -/
theorem Exact.append (h : Exact given f) (appends : Appends data f f') (resting : Resting f)
    (buffered : ¬ TakesDirect f.pos (data.length % 2 ^ 32)) :
    Exact (given ++ writeData data) f' := by
  induction appends generalizing given with
  | @buffered data f f₁ kernel all =>
      have hcopied := (kernel.keeps (stable_exact given) h).copyIn (kernel.resting resting)
        (writeData data)
      have hall := take_append_rest f₁.toBuffer (writeData data)
      rw [all, List.append_nil] at hall
      rwa [hall] at hcopied
  | @small data f f₁ f₂ f' kernel left flushes small appends ih =>
      have hresting := kernel.resting resting
      have hcopied := (kernel.keeps (stable_exact given) h).copyIn hresting (writeData data)
      obtain ⟨hrest, hpos, -, -⟩ := flushes.spec (hresting.copyIn _)
      have hsmall : ¬ TakesDirect f₂.pos ((f₁.rest (writeData data)).length % 2 ^ 32) := by
        rw [hpos, ← length_writeData, writeData_rest small]
        exact not_takesDirect_zero small
      have hdone := ih (flushes.keeps (stable_exact _) (hresting.copyIn _) hcopied) hrest hsmall
      rwa [writeData_rest small, List.append_assoc, take_append_rest] at hdone
  | @direct data f f₁ f₂ f₃ f' kernel left flushes large kernel' waits =>
      rw [length_rest, length_writeData, kernel.spec.1] at large
      exact absurd large buffered

/-- **An append that takes the direct path** writes everything, in the right place. -/
theorem Exact.append_direct (h : Exact given f) (appends : Appends data f f')
    (resting : Resting f) (direct : TakesDirect f.pos (data.length % 2 ^ 32)) :
    Whole (given ++ writeData data) f' := by
  have hbuffer := kWritableFileBufferSize_eq
  cases appends with
  | @buffered _ _ f₁ kernel all =>
      rw [rest_eq_nil_iff, length_writeData, kernel.spec.1] at all
      unfold TakesDirect at direct
      omega
  | @small _ _ f₁ _ _ kernel left flushes small appends =>
      rw [length_rest, length_writeData, kernel.spec.1] at small
      exact absurd direct (Nat.not_le.mpr small)
  | @direct _ _ f₁ f₂ f₃ _ kernel left flushes large kernel' waits =>
      have hresting := kernel.resting resting
      have hcopied := (kernel.keeps (stable_exact given) h).copyIn hresting (writeData data)
      have hflushed := flushes.keeps (stable_exact _) (hresting.copyIn _) hcopied
      obtain ⟨-, hpos, -, -⟩ := flushes.spec (hresting.copyIn _)
      have hempty : f₃.pos = 0 := by rw [kernel'.spec.1, hpos]
      have hlarge := (kernel'.keeps (stable_exact _) hflushed).submitLarge hempty
        (f₁.rest (writeData data)) (f₁.copySize (writeData data))
      rw [List.append_assoc, take_append_rest] at hlarge
      exact waits.keeps (stable_whole _) hlarge

/-- An append of nothing changes nothing. -/
theorem Whole.append_nil (h : Whole given f) (appends : Appends [] f f') (resting : Resting f) :
    Whole given f' := by
  cases appends with
  | @buffered _ _ f₁ kernel all =>
      have hwhole := kernel.keeps (stable_whole given) h
      have hcopied := hwhole.toTracks.copyIn (kernel.resting resting) (writeData [])
      rw [writeData, List.take_nil, List.take_nil, List.append_nil] at hcopied
      refine ⟨hcopied, ?_⟩
      show f₁.pos + min (writeData []).length _ = 0
      rw [length_writeData, hwhole.pos, List.length_nil, Nat.zero_mod, Nat.zero_min]
  | small kernel left flushes small appends => simp [Buffer.rest, writeData] at left
  | direct kernel left flushes large kernel' waits => simp [Buffer.rest, writeData] at left

end Appends

/-! ## Calls -/

/-- How much is in the chunk behind a call. -/
def Call.nextPos (pos : ℕ) : Call → ℕ
  | .append data => UringFile.nextPos pos (data.length % 2 ^ 32)
  | .flush | .sync => 0

/-- **Nothing follows a direct write**, where `pos` bytes are in the chunk at first: the size of
every append is a 32-bit number, and behind an append that takes the direct path nothing is
appended. -/
def NothingBehindDirect : ℕ → List Call → Prop
  | _, [] => True
  | pos, call :: calls => call.data.length < 2 ^ 32 ∧
      if TakesDirect pos call.data.length then appended calls = []
      else NothingBehindDirect (call.nextPos pos) calls

section Calls

variable {f f' : File} {given : Bytes} {call : Call} {calls : List Call}

@[simp]
theorem appended_nil : appended [] = [] := rfl

@[simp]
theorem appended_cons (call : Call) (calls : List Call) :
    appended (call :: calls) = call.data ++ appended calls := rfl

/-- **A call** brings the file to rest again. -/
theorem Call.Runs.spec (h : call.Runs f f') (resting : Resting f) :
    Resting f' ∧ f'.pos = call.nextPos f.pos ∧
      f'.submitted + f'.pos = f.submitted + f.pos + call.data.length % 2 ^ 32 ∧
      f'.isOpen = f.isOpen := by
  cases call with
  | append data => exact Appends.spec h resting
  | flush =>
      obtain ⟨hrest, hpos, hsubmitted, hopen⟩ := Flushes.spec h resting
      exact ⟨hrest, hpos, by rw [hpos, hsubmitted]; rfl, hopen⟩
  | sync =>
      obtain ⟨hrest, hpos, hsubmitted, hopen⟩ := Syncs.spec h resting
      exact ⟨hrest, hpos, by rw [hpos, hsubmitted]; rfl, hopen⟩

theorem Calls.spec (h : Calls calls f f') (resting : Resting f) :
    Resting f' ∧ f'.isOpen = f.isOpen ∧
      f'.submitted + f'.pos ≤ f.submitted + f.pos + (appended calls).length := by
  induction h with
  | nil => exact ⟨resting, rfl, Nat.le_refl _⟩
  | @cons call calls f f₁ f' runs rest ih =>
      obtain ⟨hrest, -, hsubmitted, hopen⟩ := runs.spec resting
      obtain ⟨hrest', hopen', hsubmitted'⟩ := ih hrest
      refine ⟨hrest', hopen'.trans hopen, ?_⟩
      have := Nat.mod_le call.data.length (2 ^ 32)
      rw [appended_cons, List.length_append]
      omega

/-- A call that does not take the direct path. -/
theorem Exact.of_call (h : Exact given f) (runs : call.Runs f f') (resting : Resting f)
    (size : call.data.length < 2 ^ 32) (buffered : ¬ TakesDirect f.pos call.data.length) :
    Exact (given ++ call.data) f' := by
  cases call with
  | append data =>
      rw [Call.data] at size buffered ⊢
      have hdone := h.append runs resting (by rwa [Nat.mod_eq_of_lt size])
      rwa [writeData_eq size] at hdone
  | flush =>
      rw [Call.data, List.append_nil]
      exact Flushes.keeps runs (stable_exact given) resting h
  | sync =>
      rw [Call.data, List.append_nil]
      exact Syncs.keeps runs (stable_exact given) resting h

/-- A call that takes the direct path. -/
theorem Exact.of_call_direct (h : Exact given f) (runs : call.Runs f f') (resting : Resting f)
    (size : call.data.length < 2 ^ 32) (direct : TakesDirect f.pos call.data.length) :
    Whole (given ++ call.data) f' := by
  have hzero : ¬ TakesDirect f.pos 0 := by
    unfold TakesDirect
    rw [kWritableFileBufferSize_eq]
    omega
  cases call with
  | append data =>
      rw [Call.data] at size direct ⊢
      have hdone := h.append_direct runs resting (by rwa [Nat.mod_eq_of_lt size])
      rwa [writeData_eq size] at hdone
  | flush => exact absurd direct hzero
  | sync => exact absurd direct hzero

/-- Calls that append nothing. -/
theorem Whole.of_calls (h : Whole given f) (runs : Calls calls f f') (resting : Resting f)
    (nothing : appended calls = []) : Whole given f' := by
  induction runs with
  | nil => exact h
  | @cons call calls f f₁ f' runs rest ih =>
      rw [appended_cons, List.append_eq_nil_iff] at nothing
      refine ih ?_ (runs.spec resting).1 nothing.2
      cases call with
      | append data =>
          obtain rfl : data = [] := nothing.1
          exact h.append_nil runs resting
      | flush => exact Flushes.keeps runs (stable_whole given) resting h
      | sync => exact Syncs.keeps runs (stable_whole given) resting h

/-- **Where nothing follows a direct write, every byte is where it belongs.** -/
theorem Exact.of_calls (h : Exact given f) (runs : Calls calls f f') (resting : Resting f)
    (kept : NothingBehindDirect f.pos calls) :
    Exact (given ++ appended calls) f' ∨ Whole (given ++ appended calls) f' := by
  induction runs generalizing given with
  | nil => exact .inl (by rwa [appended_nil, List.append_nil])
  | @cons call calls f f₁ f' runs rest ih =>
      obtain ⟨hsize, hkept⟩ := kept
      obtain ⟨hrest, hpos, -, -⟩ := runs.spec resting
      rw [appended_cons, ← List.append_assoc]
      by_cases hdirect : TakesDirect f.pos call.data.length
      · rw [if_pos hdirect] at hkept
        refine .inr ?_
        rw [hkept, List.append_nil]
        exact (h.of_call_direct runs resting hsize hdirect).of_calls rest hrest hkept
      · rw [if_neg hdirect] at hkept
        exact ih (h.of_call runs resting hsize hdirect) hrest (by rwa [hpos])

end Calls

/-! ## How long the file gets -/

/-- **Bounds**: nothing is written behind `top`, and what comes next goes below `low`. -/
structure Bounded (top low : ℕ) (f : File) : Prop where
  content : f.content.length ≤ top
  ends : ∀ w, .write w ∈ f.inFlight → w.offset + w.size ≤ top
  offset : f.offset + f.pos ≤ low
  le : low ≤ top

section Bounded

variable {f f' : File} {top low top' low' : ℕ} {data : Bytes} {call : Call} {calls : List Call}

theorem Bounded.mono (h : Bounded top low f) (htop : top ≤ top') (hlow : low ≤ low')
    (hle : low' ≤ top') : Bounded top' low' f :=
  ⟨h.content.trans htop, fun w hw => (h.ends w hw).trans htop, h.offset.trans hlow, hle⟩

theorem length_data_le (w : Write) (b : Buffer) : (w.data b).length ≤ w.size :=
  List.length_take_le _ _

theorem stable_bounded (top low : ℕ) : Stable (Bounded top low) where
  exec := by
    rintro f f' ⟨before, r, after, hsplit, rfl⟩ h
    have hmem : ∀ {w : Write}, .write w ∈ before ++ after → .write w ∈ f.inFlight :=
      fun hw => hsplit ▸ mem_of_mem_removed hw
    cases r with
    | fsync => exact ⟨h.content, fun w hw => h.ends w (hmem hw), h.offset, h.le⟩
    | write v =>
        refine ⟨?_, fun w hw => h.ends w (hmem hw), h.offset, h.le⟩
        have hends := h.ends v (by rw [hsplit]; simp)
        have hdata := length_data_le v f.toBuffer
        have hcontent := h.content
        simp only [File.perform, length_overwrite]
        omega
  consume := fun h => ⟨h.content, h.ends, h.offset, h.le⟩
  submitIo := by
    intro f _ _ h
    have hoffset := h.offset
    have hle := h.le
    refine ⟨h.content, fun w hw => ?_, hoffset, hle⟩
    rcases mem_write_append hw with hw | hw
    · exact h.ends w hw
    · obtain rfl : w = _ := Request.write.inj hw
      exact hoffset.trans hle
  submitFsync := by
    intro f h
    refine ⟨h.content, fun w hw => ?_, h.offset, h.le⟩
    rcases mem_write_append hw with hw | hw
    · exact h.ends w hw
    · simp at hw
  closeFd := fun h => ⟨h.content, h.ends, h.offset, h.le⟩

theorem Bounded.copyIn (h : Bounded top low f) (data : Bytes) :
    Bounded (max top (low + f.copySize data)) (low + f.copySize data) (f.copyIn data) := by
  have hoffset := h.offset
  refine ⟨h.content.trans (le_max_left _ _), fun w hw => (h.ends w hw).trans (le_max_left _ _), ?_,
    le_max_right _ _⟩
  simp only [File.copyIn]
  omega

/-- The bounds of a file in which a chunk was filled and flushed. -/
theorem Bounded.flushed {f₁ f₂ : File} (h : Bounded top low f) (kernel : Kernel f f₁)
    (flushes : Flushes (f₁.copyIn data) f₂) (resting : Resting f) :
    Bounded (max top (low + f₁.copySize data)) (low + f₁.copySize data) f₂ :=
  flushes.keeps (stable_bounded _ _) ((kernel.resting resting).copyIn _)
    ((kernel.keeps (stable_bounded _ _) h).copyIn data)

/-- **The direct path leaves the offset behind**: what comes next goes to a place before the end
of what was written directly. -/
theorem Bounded.direct {f₁ f₂ f₃ : File} (h : Bounded top low f) (kernel : Kernel f f₁)
    (flushes : Flushes (f₁.copyIn data) f₂) (resting : Resting f)
    (large : kWritableFileBufferSize ≤ (f₁.rest data).length) (kernel' : Kernel f₂ f₃)
    (waits : Waits .large (f₃.submitLarge (f₁.rest data) (f₁.copySize data)) f') :
    Bounded (max top (low + data.length)) (low + data.length - 1) f' := by
  have hflushed := kernel'.keeps (stable_bounded _ _) (h.flushed kernel flushes resting)
  obtain ⟨-, hpos, -, -⟩ := flushes.spec ((kernel.resting resting).copyIn _)
  have hempty : f₃.pos = 0 := by rw [kernel'.spec.1, hpos]
  have hsplit : f₁.copySize data + (f₁.rest data).length = data.length := by
    have hcopy : (data.take (f₁.copySize data)).length = f₁.copySize data := by
      rw [List.length_take, min_eq_left (copySize_le _ _)]
    rw [← hcopy, ← List.length_append, take_append_rest]
  have hcopy : f₁.copySize data ≤ kChunkSize := (min_le_right _ _).trans (Nat.sub_le _ _)
  have hoffset := hflushed.offset
  rw [kChunkSize_eq] at hcopy
  rw [kWritableFileBufferSize_eq] at large
  refine waits.keeps (stable_bounded _ _) ⟨?_, fun w hw => ?_, ?_, ?_⟩
  · have := hflushed.content
    simp only [File.submitLarge]
    omega
  · rcases mem_write_append hw with hw | hw
    · have := hflushed.ends w hw
      omega
    · obtain rfl : w = _ := Request.write.inj hw
      show f₃.offset + (f₁.rest data).length ≤ _
      omega
  · simp only [File.submitLarge]
    omega
  · omega

theorem Bounded.append (h : Bounded top low f) (appends : Appends data f f')
    (resting : Resting f) : Bounded (max top (low + data.length % 2 ^ 32))
      (low + data.length % 2 ^ 32) f' := by
  induction appends generalizing top low with
  | @buffered data f f₁ kernel all =>
      have hcopied := (kernel.keeps (stable_bounded _ _) h).copyIn (writeData data)
      have hcopy := copySize_le f₁.toBuffer (writeData data)
      rw [length_writeData] at hcopy
      exact hcopied.mono (by omega) (by omega) (le_max_right _ _)
  | @small data f f₁ f₂ f' kernel left flushes small appends ih =>
      have hrest := (flushes.spec ((kernel.resting resting).copyIn _)).1
      have hdone := ih (h.flushed kernel flushes resting) hrest
      have hsplit := congrArg List.length (take_append_rest f₁.toBuffer (writeData data))
      rw [List.length_append, List.length_take, min_eq_left (copySize_le _ _),
        length_writeData] at hsplit
      rw [← length_writeData, writeData_rest small] at hdone
      exact hdone.mono (by omega) (by omega) (le_max_right _ _)
  | direct kernel left flushes large kernel' waits =>
      have hdone := h.direct kernel flushes resting large kernel' waits
      rw [length_writeData] at hdone
      exact hdone.mono (le_refl _) (by omega) (le_max_right _ _)

theorem Bounded.append_direct (h : Bounded top low f) (appends : Appends data f f')
    (resting : Resting f) (direct : TakesDirect f.pos (data.length % 2 ^ 32)) :
    Bounded (max top (low + data.length % 2 ^ 32)) (low + data.length % 2 ^ 32 - 1) f' := by
  have hbuffer := kWritableFileBufferSize_eq
  cases appends with
  | buffered kernel all =>
      rw [rest_eq_nil_iff, length_writeData, kernel.spec.1] at all
      unfold TakesDirect at direct
      omega
  | small kernel left flushes small appends =>
      rw [length_rest, length_writeData, kernel.spec.1] at small
      exact absurd direct (Nat.not_le.mpr small)
  | direct kernel left flushes large kernel' waits =>
      have hdone := h.direct kernel flushes resting large kernel' waits
      rwa [length_writeData] at hdone

theorem Bounded.of_call (h : Bounded top low f) (runs : call.Runs f f') (resting : Resting f) :
    Bounded (max top (low + call.data.length % 2 ^ 32)) (low + call.data.length % 2 ^ 32) f' := by
  cases call with
  | append data => exact h.append runs resting
  | flush =>
      exact (Flushes.keeps runs (stable_bounded _ _) resting h).mono (le_max_left _ _)
        (Nat.le_add_right _ _) (le_max_right _ _)
  | sync =>
      exact (Syncs.keeps runs (stable_bounded _ _) resting h).mono (le_max_left _ _)
        (Nat.le_add_right _ _) (le_max_right _ _)

theorem Bounded.of_calls (h : Bounded top low f) (runs : Calls calls f f') (resting : Resting f) :
    Bounded (max top (low + (appended calls).length)) (low + (appended calls).length) f' := by
  induction runs generalizing top low with
  | nil => exact h.mono (le_max_left _ _) (Nat.le_add_right _ _) (le_max_right _ _)
  | @cons call calls f f₁ f' runs rest ih =>
      have hdone := ih (h.of_call runs resting) (runs.spec resting).1
      have := Nat.mod_le call.data.length (2 ^ 32)
      rw [appended_cons, List.length_append]
      exact hdone.mono (by omega) (by omega) (le_max_right _ _)

/-- **Where something follows a direct write, the file gets too short.** -/
theorem Bounded.short {n : ℕ} (h : Bounded n n f) (runs : Calls calls f f') (resting : Resting f)
    (behind : ¬ NothingBehindDirect f.pos calls) :
    ∃ m < n + (appended calls).length, Bounded m m f' := by
  induction runs generalizing n with
  | nil => exact absurd trivial behind
  | @cons call calls f f₁ f' runs rest ih =>
      obtain ⟨hrest, hpos, -, -⟩ := runs.spec resting
      have hcall := h.of_call runs resting
      rw [max_eq_right (Nat.le_add_right _ _)] at hcall
      rw [appended_cons, List.length_append]
      by_cases hsize : call.data.length < 2 ^ 32
      · rw [Nat.mod_eq_of_lt hsize] at hcall
        simp only [NothingBehindDirect, hsize, true_and] at behind
        by_cases hdirect : TakesDirect f.pos call.data.length
        · rw [if_pos hdirect] at behind
          have hpositive := List.length_pos_iff.mpr behind
          obtain ⟨data, rfl⟩ : ∃ data, call = .append data := by
            cases call with
            | append data => exact ⟨data, rfl⟩
            | flush | sync =>
                simp [TakesDirect, Call.data, kWritableFileBufferSize_eq] at hdirect
          rw [Call.data] at hsize hdirect hcall ⊢
          have hlag := h.append_direct runs resting (by rwa [Nat.mod_eq_of_lt hsize])
          rw [Nat.mod_eq_of_lt hsize, max_eq_right (Nat.le_add_right _ _)] at hlag
          have hlarge : 0 < data.length := by
            unfold TakesDirect at hdirect
            rw [kWritableFileBufferSize_eq] at hdirect
            omega
          exact ⟨n + data.length - 1 + (appended calls).length, by omega,
            (hlag.of_calls rest hrest).mono (by omega) (le_refl _) (le_refl _)⟩
        · rw [if_neg hdirect, ← hpos] at behind
          obtain ⟨m, hm, hdone⟩ := ih hcall hrest behind
          exact ⟨m, by omega, hdone⟩
      · have hmod := Nat.mod_lt call.data.length (show 2 ^ 32 > 0 by norm_num)
        refine ⟨n + call.data.length % 2 ^ 32 + (appended calls).length, by omega, ?_⟩
        exact (hcall.of_calls rest hrest).mono (by omega) (le_refl _) (le_refl _)

end Bounded

/-! ## The lazy kernel

Every call comes to an end, and the kernel need not execute the write of the last chunk for it. -/

/-- **The last chunk is not written**: bytes are in the chunk that is filled, or the write of the
other one is under way. -/
def Late (f : File) : Prop :=
  0 < f.pos ∨ ∃ w, .write w ∈ f.inFlight ∧ 0 < w.size ∧ w.source = .chunk (!f.current)

section Lazy

variable {f : File} {tag : Tag}

/-- A wait for a tag in the ring comes to an end, with the other requests left as they are. -/
theorem exists_waits (outstanding : tag ∈ f.outstanding) :
    ∃ f', Waits tag f f' ∧ ∀ r ∈ f.inFlight, r.tag ≠ tag → r ∈ f'.inFlight := by
  by_cases hcq : tag ∈ f.cq
  · exact ⟨f.consume, .found .refl hcq, fun r hr _ => hr⟩
  · rcases List.mem_append.mp outstanding with hmem | hmem
    · obtain ⟨r, hr, rfl⟩ := List.mem_map.mp hmem
      obtain ⟨before, after, hsplit⟩ := List.append_of_mem hr
      refine ⟨_, .found (.single ⟨before, r, after, hsplit, rfl⟩) ?_, fun r' hr' hne => ?_⟩
      · exact List.mem_append_right _ (List.mem_singleton_self _)
      · rw [hsplit, List.mem_append, List.mem_cons] at hr'
        show r' ∈ before ++ after
        rcases hr' with hr' | rfl | hr'
        · exact List.mem_append_left _ hr'
        · exact absurd rfl hne
        · exact List.mem_append_right _ hr'
    · exact absurd hmem hcq

theorem exists_flushes (resting : Resting f) : ∃ f', Flushes f f' ∧ (Late f → Late f') := by
  by_cases hpos : f.pos = 0
  · exact ⟨f, .nothing hpos, id⟩
  · have hring := resting.toRing.submitIo resting.current
    have hnew : .write ⟨.chunk f.current, f.pos, f.offset, f.submitted⟩ ∈ f.submitIo.inFlight :=
      List.mem_append_right _ (List.mem_singleton_self _)
    cases hready : f.submitIo.ready f.submitIo.current with
    | true =>
        refine ⟨f.submitIo, .free .refl hpos hready, fun _ => .inr ⟨_, hnew, ?_, ?_⟩⟩
        · exact Nat.pos_of_ne_zero hpos
        · rw [current_submitIo, Bool.not_not]
    | false =>
        have hout : .chunk f.submitIo.current ∈ f.submitIo.outstanding := by
          by_contra hnot
          rw [(hring.ready _).mpr hnot] at hready
          simp at hready
        obtain ⟨f', hwaits, hleft⟩ := exists_waits hout
        refine ⟨f', .busy .refl hpos hready hwaits, fun _ => .inr ⟨_, hleft _ hnew ?_, ?_, ?_⟩⟩
        · rw [current_submitIo]
          simp [Request.tag, Write.tag]
        · exact Nat.pos_of_ne_zero hpos
        · rw [(hwaits.spec hring).2.1, current_submitIo, Bool.not_not]

/-- The direct write is executed, and the chunk before it is not. -/
theorem exists_submitLarge (resting : Resting f) (rest : Bytes) (n : ℕ) :
    ∃ f', Waits .large (f.submitLarge rest n) f' ∧ (Late f → Late f') := by
  have hring := resting.toRing.submitLarge resting.large rest n
  have hout : .large ∈ (f.submitLarge rest n).outstanding :=
    List.mem_append_left _ (List.mem_map.mpr
      ⟨_, List.mem_append_right _ (List.mem_singleton_self _), rfl⟩)
  obtain ⟨f', hwaits, hleft⟩ := exists_waits hout
  have hbuffer := (hwaits.spec hring).2.1
  refine ⟨f', hwaits, ?_⟩
  rintro (hpos | ⟨w, hw, hsize, hsource⟩)
  · refine .inl ?_
    rw [hbuffer]
    exact hpos
  · refine .inr ⟨w, hleft _ (List.mem_append_left _ hw) ?_, hsize, ?_⟩
    · simp [Request.tag, Write.tag, hsource]
    · rw [hbuffer]
      exact hsource

theorem Late.copyIn (h : Late f) (data : Bytes) : Late (f.copyIn data) := by
  rcases h with hpos | hlate
  · exact .inl (Nat.add_pos_left hpos _)
  · exact .inr hlate

/-- **Every append comes to an end**, with the last chunk not written. -/
theorem exists_appends (data : Bytes) (resting : Resting f) :
    ∃ f', Appends data f f' ∧ (Late f ∨ data.length % 2 ^ 32 ≠ 0 → Late f') := by
  -- A call for the rest has less to do: the chunk was full, and is empty then.
  induction hn : data.length % 2 ^ 32 + f.pos using Nat.strong_induction_on generalizing data f with
  | _ n ih =>
      by_cases hall : f.rest (writeData data) = []
      · refine ⟨_, .buffered .refl hall, ?_⟩
        rintro (hlate | hsize)
        · exact hlate.copyIn _
        · rw [rest_eq_nil_iff, length_writeData] at hall
          refine .inl ?_
          simp only [File.copyIn, Buffer.copySize, length_writeData]
          omega
      · have hcopied := resting.copyIn (writeData data)
        have hfull := pos_copyIn_of_rest resting.toRing hall
        have hchunk := kChunkSize_eq
        obtain ⟨f₂, hflushes, hlate⟩ := exists_flushes hcopied
        obtain ⟨hrest, hpos, -, -⟩ := hflushes.spec hcopied
        have hlate₂ : Late f₂ := hlate (.inl (by omega))
        by_cases hsmall : (f.rest (writeData data)).length < kWritableFileBufferSize
        · have hless : (f.rest (writeData data)).length % 2 ^ 32 + f₂.pos < n := by
            have hbound := resting.pos
            rw [rest_eq_nil_iff, length_writeData] at hall
            rw [← length_writeData, writeData_rest hsmall, length_rest, length_writeData]
            omega
          obtain ⟨f', happends, hlate'⟩ := ih _ hless (f.rest (writeData data)) hrest rfl
          exact ⟨f', .small .refl hall hflushes hsmall happends, fun _ => hlate' (.inl hlate₂)⟩
        · obtain ⟨f', hwaits, hlate'⟩ := exists_submitLarge hrest (f.rest (writeData data))
            (f.copySize (writeData data))
          exact ⟨f', .direct .refl hall hflushes (Nat.not_lt.mp hsmall) .refl hwaits,
            fun _ => hlate' hlate₂⟩

/-- The `fsync` is executed before everything else that is under way. -/
theorem exists_fsync (f : File) : ∃ f', Waits .sync f.submitFsync f' ∧
    f'.toBuffer = f.toBuffer ∧ f'.inFlight = f.inFlight ∧ f'.durable = f.finished := by
  refine ⟨_, .found (.single ⟨f.inFlight, .fsync, [], rfl, rfl⟩) ?_, rfl, ?_, rfl⟩
  · exact List.mem_append_right _ (List.mem_singleton_self _)
  · exact List.append_nil _

/-- **Every sync comes to an end**, and need not wait for the last chunk. -/
theorem exists_syncs (resting : Resting f) : ∃ f₁ f', Flushes f f₁ ∧ (Late f → Late f₁) ∧
    Syncs f f' ∧ f'.toBuffer = f₁.toBuffer ∧ f'.inFlight = f₁.inFlight ∧
    f'.durable = f₁.finished := by
  obtain ⟨f₁, hflushes, hlate⟩ := exists_flushes resting
  obtain ⟨f', hwaits, hbuffer, hflight, hdurable⟩ := exists_fsync f₁
  exact ⟨f₁, f', hflushes, hlate, ⟨hflushes, .refl, hwaits⟩, hbuffer, hflight, hdurable⟩

/-- **Calls come to an end**, with the last chunk not written. -/
theorem exists_calls (calls : List Call) (resting : Resting f)
    (late : 0 < f.submitted + f.pos → Late f) :
    ∃ f', Calls calls f f' ∧ (0 < f'.submitted + f'.pos → Late f') := by
  induction calls generalizing f with
  | nil => exact ⟨f, .nil, late⟩
  | cons call calls ih =>
      have hcall : ∃ f₁, call.Runs f f₁ ∧
          (Late f ∨ call.data.length % 2 ^ 32 ≠ 0 → Late f₁) := by
        cases call with
        | append data => exact exists_appends data resting
        | flush =>
            obtain ⟨f₁, hflushes, hlate⟩ := exists_flushes resting
            exact ⟨f₁, hflushes, fun h => hlate (h.resolve_right (by simp [Call.data]))⟩
        | sync =>
            obtain ⟨f₁, f', -, hlate, hsyncs, hbuffer, hflight, -⟩ := exists_syncs resting
            refine ⟨f', hsyncs, fun h => ?_⟩
            have hlate' := hlate (h.resolve_right (by simp [Call.data]))
            rwa [Late, ← hbuffer, ← hflight] at hlate'
      obtain ⟨f₁, hruns, hlate⟩ := hcall
      obtain ⟨hrest, -, hsubmitted, -⟩ := hruns.spec resting
      have hlate₁ : 0 < f₁.submitted + f₁.pos → Late f₁ := by
        intro hpositive
        by_cases hsize : call.data.length % 2 ^ 32 = 0
        · exact hlate (.inl (late (by omega)))
        · exact hlate (.inr hsize)
      obtain ⟨f', hcalls, hlate'⟩ := ih hrest hlate₁
      exact ⟨f', .cons hruns hcalls, hlate'⟩

/-- **Every close comes to an end.** -/
theorem exists_closes (resting : Resting f) : ∃ f', Closes f f' := by
  cases hopen : f.isOpen with
  | false => exact ⟨f, .closed hopen⟩
  | true =>
      have hother : ∃ f₁, WaitsOther f f₁ := by
        cases hready : f.ready (!f.current) with
        | true => exact ⟨f, .free hready⟩
        | false =>
            have hout : .chunk (!f.current) ∈ f.outstanding := by
              by_contra hnot
              rw [(resting.ready _).mpr hnot] at hready
              simp at hready
            obtain ⟨f₁, hwaits, -⟩ := exists_waits hout
            rw [← maskChunk_succ] at hwaits
            exact ⟨f₁, .busy hready hwaits⟩
      obtain ⟨f₁, hother⟩ := hother
      obtain ⟨hrest, hbuffer, -⟩ := hother.spec resting
      by_cases hpos : f₁.pos = 0
      · exact ⟨_, .empty hopen hother hpos⟩
      · have hout : .chunk f₁.current ∈ f₁.submitIo.outstanding :=
          List.mem_append_left _ (List.mem_map.mpr
            ⟨_, List.mem_append_right _ (List.mem_singleton_self _), rfl⟩)
        obtain ⟨f', hwaits, -⟩ := exists_waits hout
        rw [← maskChunk_chunkPos, hbuffer] at hwaits
        exact ⟨_, .submits hopen hother .refl hpos hwaits⟩

end Lazy

/-! ## The content of a closed file -/

/-- A file that was written by calls and closed. -/
def Written (calls : List Call) (f' : File) : Prop :=
  ∃ f f₁, Calls calls new f ∧ Closes f f₁ ∧ Kernel f₁ f'

theorem exact_new : Exact [] new where
  total := rfl
  chunk := rfl
  ends := by simp [new]
  carries := by simp [new]
  length := Nat.le_refl _
  covered := by simp [new]
  offset := rfl

theorem bounded_new : Bounded 0 0 new := ⟨Nat.le_refl _, by simp [new], Nat.le_refl _, Nat.le_refl _⟩

/-- **The calls come to an end**, in some order of the kernel. -/
theorem exists_written (calls : List Call) : ∃ f, Written calls f := by
  obtain ⟨f, hcalls, -⟩ := exists_calls calls resting_new (by simp [new])
  obtain ⟨f', hcloses⟩ := exists_closes (hcalls.spec resting_new).1
  exact ⟨f', f, f', hcalls, hcloses, .refl⟩

/-- Where something follows a direct write, no order of the kernel gives what was appended. -/
theorem content_ne {calls : List Call} (behind : ¬ NothingBehindDirect 0 calls) {f : File}
    (written : Written calls f) : f.content ≠ appended calls := by
  obtain ⟨f₁, f₂, hcalls, hcloses, hkernel⟩ := written
  obtain ⟨m, hm, hbounded⟩ := bounded_new.short hcalls resting_new behind
  have hclosed := hcloses.keeps (stable_bounded m m) (hcalls.spec resting_new).1 hbounded
  have hlen := (hkernel.keeps (stable_bounded m m) hclosed).content
  intro heq
  rw [heq] at hlen
  omega

/-- Where nothing follows a direct write, every order of the kernel gives what was appended. -/
theorem content_eq {calls : List Call} (kept : NothingBehindDirect 0 calls) {f : File}
    (written : Written calls f) : f.content = appended calls := by
  obtain ⟨f₁, f₂, hcalls, hcloses, hkernel⟩ := written
  obtain ⟨hrest, hopen, -⟩ := hcalls.spec resting_new
  have htracks : Tracks (appended calls) f₂ := by
    rcases exact_new.of_calls hcalls resting_new kept with hexact | hwhole
    · exact (hcloses.keeps (stable_exact _) hrest hexact).toTracks
    · exact (hcloses.keeps (stable_whole _) hrest hwhole).toTracks
  obtain ⟨hflight, hpos, -⟩ := hcloses.spec hrest hopen
  have hsame : f = f₂ := by
    rcases Relation.ReflTransGen.cases_head hkernel with rfl | ⟨f₃, ⟨before, r, after, hsplit, -⟩, -⟩
    · rfl
    · simp [hflight] at hsplit
  rw [hsame]
  exact htracks.content_eq hflight hpos

/-- **The content of a file**, after any calls of `Append`, `Flush` and `Sync` that `Close` ends:
in every order in which the kernel executes the writes it is what was appended, exactly if the
size of every append is a 32-bit number and nothing is appended behind an append that takes the
direct path. -/
theorem content_eq_iff (calls : List Call) :
    (∀ f, Written calls f → f.content = appended calls) ↔ NothingBehindDirect 0 calls := by
  constructor
  · intro hall
    by_contra hbehind
    obtain ⟨f, hwritten⟩ := exists_written calls
    exact content_ne hbehind hwritten (hall f hwritten)
  · exact fun hkept f hwritten => content_eq hkept hwritten

theorem not_nothingBehindDirect {data : Bytes} {calls : List Call} {pos : ℕ}
    (direct : TakesDirect pos data.length) (more : appended calls ≠ []) :
    ¬ NothingBehindDirect pos (.append data :: calls) := by
  rintro ⟨-, hkept⟩
  rw [Call.data, if_pos direct] at hkept
  exact more hkept

/-- Two appends, the first of which takes the direct path. -/
def directThenOne : List Call := [.append (List.replicate 100000 1), .append [2]]

/-- The byte behind the direct write is put into it, and the file is too short. -/
theorem content_ne_directThenOne :
    ∃ f, Written directThenOne f ∧ f.content ≠ appended directThenOne := by
  have hbehind : ¬ NothingBehindDirect 0 directThenOne :=
    not_nothingBehindDirect (by rw [List.length_replicate]; decide) (by simp [Call.data])
  obtain ⟨f, hwritten⟩ := exists_written directThenOne
  exact ⟨f, hwritten, content_ne hbehind hwritten⟩

/-! ## What a sync makes durable -/

/-- The writes among the requests. -/
def writes (l : List Request) : List Write :=
  l.filterMap fun
    | .write w => some w
    | .fsync => none

/-- A write carries one of the bytes that were appended. -/
def Write.Carries (w : Write) (i : ℕ) : Prop := w.first ≤ i ∧ i < w.first + w.size

/-- Two writes carry different bytes. -/
def Write.Apart (w v : Write) : Prop := w.first + w.size ≤ v.first ∨ v.first + v.size ≤ w.first

/-- **Every byte is carried by one write**, and only writes that were executed are durable. -/
structure Apart (f : File) : Prop where
  apart : (f.finished ++ writes f.inFlight).Pairwise Write.Apart
  ends : ∀ w ∈ f.finished ++ writes f.inFlight, w.first + w.size ≤ f.submitted
  durable : f.durable ⊆ f.finished

section Apart

variable {f f' : File} {data : Bytes}

theorem writes_append (l l' : List Request) : writes (l ++ l') = writes l ++ writes l' :=
  List.filterMap_append

theorem writes_cons_write (w : Write) (l : List Request) :
    writes (.write w :: l) = w :: writes l := rfl

theorem writes_cons_fsync (l : List Request) : writes (.fsync :: l) = writes l := rfl

theorem mem_writes {w : Write} {l : List Request} : w ∈ writes l ↔ .write w ∈ l := by
  simp only [writes, List.mem_filterMap]
  constructor
  · rintro ⟨r, hr, heq⟩
    cases r with
    | write v => rwa [← Option.some.inj heq]
    | fsync => simp at heq
  · exact fun h => ⟨.write w, h, rfl⟩

/-- A write is submitted behind all others. -/
theorem Apart.submit (h : Apart f) {w : Write} (first : w.first = f.submitted)
    (submitted : f'.submitted = f.submitted + w.size)
    (inFlight : f'.inFlight = f.inFlight ++ [.write w]) (finished : f'.finished = f.finished)
    (durable : f'.durable = f.durable) : Apart f' := by
  have hwrites : f'.finished ++ writes f'.inFlight = f.finished ++ writes f.inFlight ++ [w] := by
    rw [finished, inFlight, writes_append, List.append_assoc]
    rfl
  refine ⟨?_, fun v hv => ?_, ?_⟩
  · rw [hwrites, List.pairwise_append]
    refine ⟨h.apart, List.pairwise_singleton _ _, fun v hv w' hw' => .inl ?_⟩
    rw [List.mem_singleton.mp hw', first]
    exact h.ends v hv
  · rw [hwrites] at hv
    rw [submitted]
    rcases List.mem_append.mp hv with hv | hv
    · exact (h.ends v hv).trans (Nat.le_add_right _ _)
    · rw [List.mem_singleton.mp hv, first]
  · rw [durable, finished]
    exact h.durable

theorem Write.Apart.symm {w v : Write} (h : w.Apart v) : v.Apart w := Or.symm h

theorem stable_apart : Stable Apart where
  exec := by
    rintro f f' ⟨before, r, after, hsplit, rfl⟩ h
    cases r with
    | fsync =>
        have hwrites : writes f.inFlight = writes (before ++ after) := by
          rw [hsplit, writes_append, writes_append, writes_cons_fsync]
        refine ⟨?_, fun w hw => h.ends w ?_, List.Subset.refl _⟩
        · have := h.apart
          rwa [hwrites] at this
        · rwa [hwrites]
    | write v =>
        have hperm : ((f.finished ++ [v]) ++ writes (before ++ after)).Perm
            (f.finished ++ writes f.inFlight) := by
          rw [hsplit, writes_append, writes_append, writes_cons_write, List.append_assoc]
          refine List.Perm.append_left _ ?_
          rw [List.singleton_append]
          exact List.perm_middle.symm
        refine ⟨(hperm.pairwise_iff fun h => h.symm).mpr h.apart,
          fun w hw => h.ends w (hperm.mem_iff.mp hw), ?_⟩
        exact fun w hw => List.mem_append_left _ (h.durable hw)
  consume := fun h => ⟨h.apart, h.ends, h.durable⟩
  submitIo := fun _ _ h => h.submit rfl rfl rfl rfl rfl
  submitFsync := by
    intro f h
    have hwrites : writes f.submitFsync.inFlight = writes f.inFlight := by
      rw [File.submitFsync, writes_append]
      exact List.append_nil _
    refine ⟨?_, fun w hw => h.ends w ?_, h.durable⟩
    · rw [hwrites]
      exact h.apart
    · rwa [hwrites] at hw
  closeFd := fun h => ⟨h.apart, h.ends, h.durable⟩

theorem Apart.append (h : Apart f) (appends : Appends data f f') (resting : Resting f) :
    Apart f' := by
  have hcopy : ∀ {f : File} {data : Bytes}, Apart f → Apart (f.copyIn data) :=
    fun h => ⟨h.apart, h.ends, h.durable⟩
  induction appends with
  | buffered kernel all => exact hcopy (kernel.keeps stable_apart h)
  | @small data _ _ _ _ kernel left flushes small appends ih =>
      have hcopied := (kernel.resting resting).copyIn (writeData data)
      exact ih (flushes.keeps stable_apart hcopied (hcopy (kernel.keeps stable_apart h)))
        (flushes.spec hcopied).1
  | @direct data _ _ _ _ _ kernel left flushes large kernel' waits =>
      have hcopied := (kernel.resting resting).copyIn (writeData data)
      have hflushed := flushes.keeps stable_apart hcopied (hcopy (kernel.keeps stable_apart h))
      exact waits.keeps stable_apart
        ((kernel'.keeps stable_apart hflushed).submit rfl rfl rfl rfl rfl)

theorem Apart.of_calls {calls : List Call} (h : Apart f) (runs : Calls calls f f')
    (resting : Resting f) : Apart f' := by
  induction runs with
  | nil => exact h
  | @cons call calls f f₁ f' runs rest ih =>
      refine ih ?_ (runs.spec resting).1
      cases call with
      | append data => exact h.append runs resting
      | flush => exact Flushes.keeps runs stable_apart resting h
      | sync => exact Syncs.keeps runs stable_apart resting h

/-- The first byte of a write that is under way is in no write that was executed. -/
theorem Apart.not_carries (h : Apart f) {w : Write} (inFlight : .write w ∈ f.inFlight)
    (size : 0 < w.size) : ∀ v ∈ f.finished, ¬ v.Carries w.first := by
  rintro v hv ⟨hle, hlt⟩
  have hapart := (List.pairwise_append.mp h.apart).2.2 v hv w (mem_writes.mpr inFlight)
  unfold Write.Apart at hapart
  omega

end Apart

/-- A file after calls and a `Sync` that returned. -/
def Synced (calls : List Call) (f' : File) : Prop := ∃ f, Calls calls new f ∧ Syncs f f'

/-- Every byte that the calls appended is durable. -/
def AllDurable (calls : List Call) (f : File) : Prop :=
  ∀ i < (appended calls).length, ∃ w ∈ f.durable, w.Carries i

/-- **Where a byte was appended, the kernel can leave one behind.** -/
theorem exists_not_allDurable {calls : List Call} (something : appended calls ≠ []) :
    ∃ f, Synced calls f ∧ ¬ AllDurable calls f := by
  obtain ⟨f, hcalls, hlate⟩ := exists_calls calls resting_new (by simp [new])
  obtain ⟨hrest, -, htotal⟩ := hcalls.spec resting_new
  have hapart : Apart f := by
    refine Apart.of_calls ⟨?_, ?_, ?_⟩ hcalls resting_new
    · exact .nil
    · simp [new, writes]
    · exact List.Subset.refl _
  obtain ⟨f₁, f', hflushes, hlate₁, hsyncs, hbuffer, hflight, hdurable⟩ := exists_syncs hrest
  obtain ⟨-, hpos, hsubmitted, -⟩ := hflushes.spec hrest
  have hapart₁ := hflushes.keeps stable_apart hrest hapart
  refine ⟨f', ⟨f, hcalls, hsyncs⟩, fun hall => ?_⟩
  rw [AllDurable, hdurable] at hall
  have hsome := List.length_pos_iff.mpr something
  rcases Nat.eq_zero_or_pos (f.submitted + f.pos) with hzero | hpositive
  · -- Nothing was taken, because the sizes of the appends are 0 as 32-bit numbers.
    obtain ⟨w, hw, hcarries⟩ := hall 0 hsome
    have hends := hapart₁.ends w (List.mem_append_left _ hw)
    have hlt := hcarries.2
    omega
  · -- The write of the last chunk is under way when the `fsync` is executed.
    rcases hlate₁ (hlate hpositive) with hfull | ⟨w, hw, hsize, -⟩
    · omega
    · have hends := hapart₁.ends w (List.mem_append_right _ (mem_writes.mpr hw))
      have htotal' : f₁.submitted ≤ (appended calls).length := by
        have hnew : new.submitted + new.pos = 0 := rfl
        omega
      obtain ⟨v, hv, hcarries⟩ := hall w.first (by omega)
      exact hapart₁.not_carries hw hsize v hv hcarries

/-- **What `Sync` promises**: after any calls, in every order in which the kernel executes the
writes and the `fsync`, every byte that was appended is durable when `Sync` returns, exactly if
no byte was appended. -/
theorem synced_iff (calls : List Call) :
    (∀ f, Synced calls f → AllDurable calls f) ↔ appended calls = [] := by
  constructor
  · intro hall
    by_contra hsome
    obtain ⟨f, hsynced, hnot⟩ := exists_not_allDurable hsome
    exact hnot (hall f hsynced)
  · intro hnone f _ i hi
    rw [hnone] at hi
    exact absurd hi (Nat.not_lt_zero i)

/-- One byte is appended, and is not durable behind `Sync`. -/
theorem not_allDurable_one_byte :
    ∃ f, Synced [.append [7]] f ∧ ¬ AllDurable [.append [7]] f :=
  exists_not_allDurable (by simp [Call.data])

end UringFile

end Lsmkv
