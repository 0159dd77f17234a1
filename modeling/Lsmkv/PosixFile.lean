import Lsmkv.WriteFailures

/-!
# Writing through a buffer

`PosixWritableFile` (`src/include/file.h`) with the array of its buffer and the loop around
`::write`.  The kernel may write any positive number of the bytes it is given, or none because the
call was interrupted, and the loop goes on until all are written.  What the calls of `::write` come
to is an argument: a list that is used up call by call, so that a list of any length leads to a
state that the file is in while it waits.

`BufferedFile` is what the class is for: bytes that the file holds, and bytes that are still to be
written, which together are what was appended.  `Does` connects a call with it, and carries the
invariant: the position lies in the buffer, whose every copy is checked against its size.
`content_eq_appended` collects the outcome for a run of `Append`, `Flush` and `Sync` with a final
`Close`.  The layer in which write failures are studied is another form of the same file
(`ofPosix_append`).
-/

namespace Lsmkv

open ByteCode
open Fallible (kWritableFileBufferSize Posix)

/-- What a call of `::write` comes to: it is interrupted, or it writes some of the bytes, at least
one. -/
inductive WriteAnswer
  | interrupted
  | wrote (n : ℕ)

namespace WriteAnswer

/-- The number of bytes that are written of a non-empty string. -/
def size (n : ℕ) (data : Bytes) : ℕ := n % data.length + 1

/-- The call makes progress. -/
def isWrite : WriteAnswer → Bool
  | interrupted => false
  | wrote _ => true

end WriteAnswer

/-- `PosixWritableFile`: the array of the buffer, the position in it, and what the file holds. -/
structure PosixWritableFile where
  buf : Bytes
  pos : ℕ
  content : Bytes
  size : buf.length = kWritableFileBufferSize

/-- How far a call comes with the answers it is given: it returns, with the answers it has not
used; it waits for one; or it has copied something behind the end of the buffer. -/
inductive Ran
  | returned (f : PosixWritableFile) (answers : List WriteAnswer)
  | waiting (f : PosixWritableFile)
  | overflow

namespace Ran

/-- What follows a call. -/
def andThen : Ran → (PosixWritableFile → List WriteAnswer → Ran) → Ran
  | returned f answers, next => next f answers
  | waiting f, _ => waiting f
  | overflow, _ => overflow

end Ran

namespace PosixWritableFile

/-- A file that was just created; nobody has set its buffer. -/
def opened (f : PosixWritableFile) : PosixWritableFile := { f with pos := 0, content := [] }

/-- `kWritableFileBufferSize - pos`, in 64 bits. -/
def room (f : PosixWritableFile) : ℕ := (kWritableFileBufferSize + (2 ^ 64 - f.pos)) % 2 ^ 64

/-- `m_memcpy(buf + at, data, size)`, and `pos = pos'`. -/
def copy (f : PosixWritableFile) (start : ℕ) (data : Bytes) (pos : ℕ) : Option PosixWritableFile :=
  if h : start + data.length ≤ kWritableFileBufferSize then
    some { f with
      buf := f.buf.take start ++ (data ++ f.buf.drop (start + data.length))
      pos := pos
      size := by
        have := f.size
        simp only [List.length_append, List.length_take, List.length_drop]
        omega }
  else none

/-- `WriteUnbuffered(data, size)`. -/
def writeUnbuffered (f : PosixWritableFile) (data : Bytes) : List WriteAnswer → Ran
  | [] => if data.isEmpty then .returned f [] else .waiting f
  | .interrupted :: answers =>
      if data.isEmpty then .returned f (.interrupted :: answers)
      else writeUnbuffered f data answers
  | .wrote n :: answers =>
      if data.isEmpty then .returned f (.wrote n :: answers)
      else
        let size := WriteAnswer.size n data
        writeUnbuffered { f with content := f.content ++ data.take size } (data.drop size) answers

/-- `FlushBuffer`. -/
def flushBuffer (f : PosixWritableFile) (answers : List WriteAnswer) : Ran :=
  (f.writeUnbuffered (f.buf.take f.pos) answers).andThen fun f answers =>
    .returned { f with pos := 0 } answers

/-- `Append(data)`. -/
def append (f : PosixWritableFile) (data : Bytes) (answers : List WriteAnswer) : Ran :=
  let copySize := min data.length f.room
  match f.copy f.pos (data.take copySize) (f.pos + copySize) with
  | none => .overflow
  | some f =>
      let rest := data.drop copySize
      if rest.isEmpty then .returned f answers
      else
        (f.flushBuffer answers).andThen fun f answers =>
          if rest.length < kWritableFileBufferSize then
            match f.copy 0 rest rest.length with
            | none => .overflow
            | some f => .returned f answers
          else f.writeUnbuffered rest answers

/-- `Flush`. -/
def flush (f : PosixWritableFile) (answers : List WriteAnswer) : Ran := f.flushBuffer answers

/-- `Sync`; `fdatasync` leaves what the file holds. -/
def sync (f : PosixWritableFile) (answers : List WriteAnswer) : Ran := f.flushBuffer answers

/-- `Close`. -/
def close (f : PosixWritableFile) (answers : List WriteAnswer) : Ran := f.flushBuffer answers

/-- A call before `Close`. -/
inductive Call
  | append (data : Bytes)
  | flush
  | sync

/-- What a call appends. -/
def Call.appended : Call → Bytes
  | .append data => data
  | .flush | .sync => []

/-- A call. -/
def Call.run (f : PosixWritableFile) (answers : List WriteAnswer) : Call → Ran
  | .append data => f.append data answers
  | .flush => f.flush answers
  | .sync => f.sync answers

/-- Calls, one after the other. -/
def run (f : PosixWritableFile) : List Call → List WriteAnswer → Ran
  | [], answers => .returned f answers
  | c :: calls, answers => (c.run f answers).andThen fun f answers => f.run calls answers

/-- Calls that are ended by `Close`. -/
def runClose (f : PosixWritableFile) (calls : List Call) (answers : List WriteAnswer) : Ran :=
  (f.run calls answers).andThen close

/-! ## The buffer -/

/-- What the buffer holds. -/
def held (f : PosixWritableFile) : Bytes := f.buf.take f.pos

/-- The position lies in the buffer. -/
def InBuffer (f : PosixWritableFile) : Prop := f.pos ≤ kWritableFileBufferSize

variable {f f' : PosixWritableFile} {data : Bytes} {answers rest : List WriteAnswer}

theorem room_eq (h : f.InBuffer) : f.room = kWritableFileBufferSize - f.pos := by
  simp only [InBuffer, kWritableFileBufferSize] at h
  simp only [room, kWritableFileBufferSize]
  omega

theorem length_held (h : f.InBuffer) : f.held.length = f.pos := by
  rw [held, List.length_take, f.size, Nat.min_eq_left h]

/-- A copy behind what the buffer holds. -/
theorem copy_pos (h : f.InBuffer) (fits : f.pos + data.length ≤ kWritableFileBufferSize) :
    ∃ g, f.copy f.pos data (f.pos + data.length) = some g ∧ g.InBuffer ∧ g.held = f.held ++ data ∧
      g.content = f.content := by
  refine ⟨_, dif_pos fits, fits, ?_, rfl⟩
  show (f.buf.take f.pos ++ (data ++ _)).take (f.pos + data.length) = f.held ++ data
  rw [← List.append_assoc]
  exact List.take_left' (by rw [List.length_append]; exact congrArg (· + data.length) (length_held h))

/-- A copy to the front of the buffer. -/
theorem copy_zero (f : PosixWritableFile) (fits : data.length ≤ kWritableFileBufferSize) :
    ∃ g, f.copy 0 data data.length = some g ∧ g.InBuffer ∧ g.held = data ∧ g.content = f.content := by
  refine ⟨_, dif_pos (by rwa [Nat.zero_add]), fits, ?_, rfl⟩
  show (f.buf.take 0 ++ (data ++ _)).take data.length = data
  rw [List.take_zero, List.nil_append, List.take_left]

/-! ## The loop of `::write` -/

/-- **The loop writes all of its data**, in order, whatever the kernel makes of the calls; until
then the file holds a part of them. -/
theorem writeUnbuffered_spec (f : PosixWritableFile) (data : Bytes) (answers : List WriteAnswer) :
    (∃ rest, f.writeUnbuffered data answers = .returned { f with content := f.content ++ data } rest ∧
        answers.countP WriteAnswer.isWrite ≤ rest.countP WriteAnswer.isWrite + data.length) ∨
      (∃ part, f.writeUnbuffered data answers = .waiting { f with content := f.content ++ part } ∧
        answers.countP WriteAnswer.isWrite < data.length) := by
  induction answers generalizing f data with
  | nil =>
      by_cases hempty : data = []
      · subst hempty
        exact .inl ⟨[], by simp [writeUnbuffered], by simp⟩
      · refine .inr ⟨[], by simp [writeUnbuffered, hempty], ?_⟩
        simpa using List.length_pos_iff.mpr hempty
  | cons answer answers ih =>
      by_cases hempty : data = []
      · subst hempty
        refine .inl ⟨answer :: answers, ?_, le_rfl⟩
        cases answer <;> simp [writeUnbuffered]
      · have hdata : data.isEmpty = false := List.isEmpty_eq_false_iff.mpr hempty
        cases answer with
        -- `EINTR`: the same call again
        | interrupted =>
            rw [writeUnbuffered, hdata, if_neg Bool.false_ne_true]
            rcases ih f data with ⟨rest, h, hcount⟩ | ⟨part, h, hcount⟩
            · exact .inl ⟨rest, h, by simpa [WriteAnswer.isWrite] using hcount⟩
            · exact .inr ⟨part, h, by simpa [WriteAnswer.isWrite] using hcount⟩
        -- a short write takes at least one byte off the data
        | wrote n =>
            rw [writeUnbuffered, hdata, if_neg Bool.false_ne_true]
            have hlt : n % data.length < data.length := Nat.mod_lt _ (List.length_pos_iff.mpr hempty)
            have hsize : WriteAnswer.size n data = n % data.length + 1 := rfl
            have hsplit : ∀ part, f.content ++ data.take (WriteAnswer.size n data) ++ part
                = f.content ++ (data.take (WriteAnswer.size n data) ++ part) :=
              List.append_assoc _ _
            have hcount : ((.wrote n : WriteAnswer) :: answers).countP WriteAnswer.isWrite
                = answers.countP WriteAnswer.isWrite + 1 :=
              List.countP_cons_of_pos rfl
            rcases ih { f with content := f.content ++ data.take (WriteAnswer.size n data) }
              (data.drop (WriteAnswer.size n data)) with ⟨rest, h, hle⟩ | ⟨part, h, hlt'⟩
            · refine .inl ⟨rest, ?_, ?_⟩
              · rw [h]
                simp only [hsplit, List.take_append_drop]
              · rw [List.length_drop] at hle
                omega
            · refine .inr ⟨data.take (WriteAnswer.size n data) ++ part, ?_, ?_⟩
              · rw [h]
                simp only [hsplit]
              · rw [List.length_drop] at hlt'
                omega

end PosixWritableFile

/-! ## A file behind a buffer -/

/-- A file behind a buffer, without positions and loops: what the file holds, and what is still to
be written. -/
@[ext] structure BufferedFile where
  content : Bytes
  held : Bytes

namespace BufferedFile

/-- What is held goes to the file. -/
def flush (b : BufferedFile) : BufferedFile := ⟨b.content ++ b.held, []⟩

/-- What fits the buffer is held.  Of longer data the rest is held if it fits the empty buffer, and
otherwise goes to the file. -/
def append (b : BufferedFile) (data : Bytes) : BufferedFile :=
  let copySize := min data.length (kWritableFileBufferSize - b.held.length)
  let rest := data.drop copySize
  let b : BufferedFile := ⟨b.content, b.held ++ data.take copySize⟩
  if rest = [] then b
  else if rest.length < kWritableFileBufferSize then ⟨b.flush.content, rest⟩
  else ⟨b.flush.content ++ rest, []⟩

/-- All that was appended. -/
def appended (b : BufferedFile) : Bytes := b.content ++ b.held

@[simp] theorem appended_flush (b : BufferedFile) : b.flush.appended = b.appended := by
  simp [flush, appended]

/-- **Nothing is lost or moved** on its way through the buffer. -/
@[simp] theorem appended_append (b : BufferedFile) (data : Bytes) :
    (b.append data).appended = b.appended ++ data := by
  simp only [append]
  split
  case isTrue hrest =>
    have htake := List.take_append_drop (min data.length (kWritableFileBufferSize - b.held.length)) data
    rw [hrest, List.append_nil] at htake
    simp [appended, htake]
  case isFalse =>
    split
    · simp [appended, flush]
    · simp [appended, flush]

theorem length_content_append (b : BufferedFile) (data : Bytes) :
    b.content.length ≤ (b.append data).content.length := by
  simp only [append]
  split
  · exact le_rfl
  · split
    · simp [flush]
    · simp [flush]

end BufferedFile

namespace PosixWritableFile

variable {f : PosixWritableFile} {data : Bytes} {answers rest : List WriteAnswer} {b b' : BufferedFile}
  {r : Ran}

/-- The file behind its buffer. -/
def view (f : PosixWritableFile) : BufferedFile := ⟨f.content, f.held⟩

/-! ## The calls -/

/-- What a call comes to that makes `b` of the file: it has returned, having used at most as many
writes as it has written bytes; or it waits for a further write.  The position lies in the buffer,
and nothing was copied behind it. -/
def Does (f : PosixWritableFile) (answers : List WriteAnswer) (b : BufferedFile) : Ran → Prop
  | .returned f' rest => f'.InBuffer ∧ f'.view = b ∧
      answers.countP WriteAnswer.isWrite + f.content.length
        ≤ rest.countP WriteAnswer.isWrite + b.content.length
  | .waiting f' => f'.InBuffer ∧
      answers.countP WriteAnswer.isWrite + f.content.length < b.content.length
  | .overflow => False

/-- What a call does, and what the next one does to its outcome. -/
theorem Does.andThen {next : PosixWritableFile → List WriteAnswer → Ran} (h : Does f answers b r)
    (grows : b.content.length ≤ b'.content.length)
    (then_does : ∀ f' rest, f'.InBuffer → f'.view = b → Does f' rest b' (next f' rest)) :
    Does f answers b' (r.andThen next) := by
  cases r with
  | overflow => exact absurd h id
  | waiting f' => exact ⟨h.1, h.2.trans_le grows⟩
  | returned f' rest =>
      obtain ⟨hin, hview, hcount⟩ := h
      have hnext := then_does f' rest hin hview
      have hcontent : f'.content.length = b.content.length := by rw [← hview]; rfl
      show Does f answers b' (next f' rest)
      cases hr : next f' rest with
      | overflow => rw [hr] at hnext; exact hnext
      | waiting f'' =>
          rw [hr] at hnext
          exact ⟨hnext.1, by have := hnext.2; omega⟩
      | returned f'' rest' =>
          rw [hr] at hnext
          exact ⟨hnext.1, hnext.2.1, by have := hnext.2.2; omega⟩

/-- What a call does to a file it does to one with the same contents. -/
theorem Does.congr {g : PosixWritableFile} (h : Does g answers b r) (content : g.content = f.content) :
    Does f answers b r := by
  cases r with
  | overflow => exact h
  | waiting f' => exact ⟨h.1, content ▸ h.2⟩
  | returned f' rest => exact ⟨h.1, h.2.1, content ▸ h.2.2⟩

/-- `FlushBuffer` writes what the buffer holds. -/
theorem does_flushBuffer (h : f.InBuffer) (answers : List WriteAnswer) :
    Does f answers f.view.flush (f.flushBuffer answers) := by
  have hlength : f.view.flush.content.length = f.content.length + f.held.length :=
    List.length_append
  rw [flushBuffer]
  rcases f.writeUnbuffered_spec (f.buf.take f.pos) answers with ⟨rest, hrun, hcount⟩ | ⟨part, hrun, hcount⟩
  · rw [hrun]
    refine ⟨Nat.zero_le _, ?_, ?_⟩
    · ext1
      · rfl
      · exact List.take_zero (l := f.buf)
    · rw [hlength]
      have hheld : f.held.length = (f.buf.take f.pos).length := rfl
      omega
  · rw [hrun]
    refine ⟨h, ?_⟩
    rw [hlength]
    have hheld : f.held.length = (f.buf.take f.pos).length := rfl
    omega

/-- Writing past an empty buffer. -/
theorem does_writeUnbuffered (empty : f.held = []) (h : f.InBuffer) (answers : List WriteAnswer) :
    Does f answers ⟨f.content ++ data, []⟩ (f.writeUnbuffered data answers) := by
  rcases f.writeUnbuffered_spec data answers with ⟨rest, hrun, hcount⟩ | ⟨part, hrun, hcount⟩
  · rw [hrun]
    refine ⟨h, ?_, ?_⟩
    · ext1
      · rfl
      · exact empty
    · rw [List.length_append]
      omega
  · rw [hrun]
    refine ⟨h, ?_⟩
    rw [List.length_append]
    omega

/-- **`Append`** is appending behind a buffer; no copy leaves the buffer. -/
theorem does_append (h : f.InBuffer) (data : Bytes) (answers : List WriteAnswer) :
    Does f answers (f.view.append data) (f.append data answers) := by
  have hheld : f.view.held.length = f.pos := length_held h
  have hroom : min data.length f.room = min data.length (kWritableFileBufferSize - f.view.held.length) := by
    rw [room_eq h, hheld]
  set copySize := min data.length (kWritableFileBufferSize - f.view.held.length) with hcopySize
  have htake : (data.take copySize).length = copySize := by
    rw [List.length_take]
    omega
  have hfits : f.pos + (data.take copySize).length ≤ kWritableFileBufferSize := by
    have hin : f.pos ≤ kWritableFileBufferSize := h
    rw [htake]
    omega
  obtain ⟨g, hg, hin, hgheld, hgcontent⟩ := copy_pos h hfits
  rw [htake] at hg
  have hview : g.view = ⟨f.view.content, f.view.held ++ data.take copySize⟩ := by
    ext1
    · exact hgcontent
    · exact hgheld
  simp only [append, hroom, hg, BufferedFile.append, ← hcopySize, List.isEmpty_iff]
  by_cases hrest : data.drop copySize = []
  · rw [if_pos hrest, if_pos hrest]
    refine ⟨hin, hview, le_of_eq ?_⟩
    rfl
  · rw [if_neg hrest, if_neg hrest, ← hview]
    refine Does.congr (g := g) ?_ hgcontent
    by_cases hsmall : (data.drop copySize).length < kWritableFileBufferSize
    · simp only [if_pos hsmall]
      refine (does_flushBuffer hin answers).andThen le_rfl fun f' rest _ hflushed => ?_
      obtain ⟨k, hk, hkin, hkheld, hkcontent⟩ := copy_zero f' hsmall.le
      rw [hk]
      have hcontent : f'.content = g.view.flush.content := congrArg BufferedFile.content hflushed
      refine ⟨hkin, ?_, ?_⟩
      · ext1
        · exact hkcontent.trans hcontent
        · exact hkheld
      · rw [hcontent]
    · simp only [if_neg hsmall]
      refine (does_flushBuffer hin answers).andThen (by simp) fun f' rest hin' hflushed => ?_
      have hcontent : f'.content = g.view.flush.content := congrArg BufferedFile.content hflushed
      have hempty : f'.held = [] := congrArg BufferedFile.held hflushed
      rw [← hcontent]
      exact does_writeUnbuffered hempty hin' rest

/-! ## Runs -/

/-- A call on a file behind a buffer. -/
def Call.apply (b : BufferedFile) : Call → BufferedFile
  | .append data => b.append data
  | .flush | .sync => b.flush

theorem Call.does (h : f.InBuffer) (c : Call) (answers : List WriteAnswer) :
    Does f answers (c.apply f.view) (c.run f answers) := by
  cases c with
  | append data => exact does_append h data answers
  | flush => exact does_flushBuffer h answers
  | sync => exact does_flushBuffer h answers

theorem Call.length_content_apply (b : BufferedFile) (c : Call) :
    b.content.length ≤ (c.apply b).content.length := by
  cases c with
  | append data => exact b.length_content_append data
  | flush => simp [apply, BufferedFile.flush]
  | sync => simp [apply, BufferedFile.flush]

@[simp] theorem Call.appended_apply (b : BufferedFile) (c : Call) :
    (c.apply b).appended = b.appended ++ c.appended := by
  cases c with
  | append data => exact b.appended_append data
  | flush => simp [apply, appended]
  | sync => simp [apply, appended]

/-- Calls on a file behind a buffer. -/
def applyAll (b : BufferedFile) (calls : List Call) : BufferedFile := calls.foldl Call.apply b

theorem length_content_applyAll (b : BufferedFile) (calls : List Call) :
    b.content.length ≤ (applyAll b calls).content.length := by
  induction calls generalizing b with
  | nil => exact le_rfl
  | cons c calls ih => exact (c.length_content_apply b).trans (ih _)

theorem appended_applyAll (b : BufferedFile) (calls : List Call) :
    (applyAll b calls).appended = b.appended ++ calls.flatMap Call.appended := by
  induction calls generalizing b with
  | nil => simp [applyAll]
  | cons c calls ih =>
      rw [applyAll, List.foldl_cons]
      refine (ih _).trans ?_
      rw [Call.appended_apply, List.flatMap_cons, List.append_assoc]

/-- **A run of calls** is one on a file behind a buffer. -/
theorem does_run (h : f.InBuffer) (calls : List Call) (answers : List WriteAnswer) :
    Does f answers (applyAll f.view calls) (f.run calls answers) := by
  induction calls generalizing f answers with
  | nil => exact ⟨h, rfl, le_rfl⟩
  | cons c calls ih =>
      refine (c.does h answers).andThen (length_content_applyAll _ calls) fun f' rest hin hview => ?_
      rw [applyAll, List.foldl_cons, ← hview]
      exact ih hin rest

theorem does_runClose (h : f.InBuffer) (calls : List Call) (answers : List WriteAnswer) :
    Does f answers (applyAll f.view calls).flush (f.runClose calls answers) := by
  refine (does_run h calls answers).andThen (by simp [BufferedFile.flush]) fun f' rest hin hview => ?_
  rw [← hview]
  exact does_flushBuffer hin rest

end PosixWritableFile

/-- The position lies in the buffer, behind a call and in it, and nothing was copied behind it. -/
def Ran.InBuffer : Ran → Prop
  | returned f _ | waiting f => f.InBuffer
  | overflow => False

namespace PosixWritableFile

theorem Does.inBuffer (h : Does f answers b r) : r.InBuffer := by
  cases r with
  | returned f' rest => exact h.1
  | waiting f' => exact h.1
  | overflow => exact h

theorem Does.view_of_returned {f' : PosixWritableFile} (h : Does f answers b (.returned f' rest)) :
    f'.view = b :=
  h.2.1

/-- A call that is given as many writes as there are bytes returns. -/
theorem Does.exists_returned (h : Does f answers b r) (empty : f.content = [])
    (enough : b.content.length ≤ answers.countP WriteAnswer.isWrite) :
    ∃ f' rest, r = .returned f' rest := by
  cases r with
  | returned f' rest => exact ⟨f', rest, rfl⟩
  | overflow => exact absurd h id
  | waiting f' =>
      have hcount := h.2
      rw [empty, List.length_nil] at hcount
      omega

theorem opened_inBuffer (f : PosixWritableFile) : f.opened.InBuffer := Nat.zero_le _

theorem view_opened (f : PosixWritableFile) : f.opened.view = ⟨[], []⟩ := by
  ext1
  · rfl
  · exact List.take_zero (l := f.buf)

/-- What a run of calls from the beginning has appended. -/
theorem appended_opened (f : PosixWritableFile) (calls : List Call) :
    (applyAll f.opened.view calls).appended = calls.flatMap Call.appended := by
  rw [appended_applyAll, view_opened]
  rfl

/-- **The file holds what was appended.**  For any calls of `Append`, `Flush` and `Sync`, and
whatever the kernel makes of the calls of `::write`: the position never leaves the buffer; behind a
`Flush` or a `Sync` the file holds all that was appended so far, and behind `Close` all that was
appended; and `Close` is reached once the kernel has made as many writes as there are bytes. -/
theorem content_eq_appended (f : PosixWritableFile) (calls : List Call) (answers : List WriteAnswer) :
    (f.opened.run calls answers).InBuffer ∧ (f.opened.runClose calls answers).InBuffer ∧
    (∀ f' rest, f.opened.run (calls ++ [.flush]) answers = .returned f' rest →
      f'.content = calls.flatMap Call.appended) ∧
    (∀ f' rest, f.opened.run (calls ++ [.sync]) answers = .returned f' rest →
      f'.content = calls.flatMap Call.appended) ∧
    (∀ f' rest, f.opened.runClose calls answers = .returned f' rest →
      f'.content = calls.flatMap Call.appended) ∧
    ((calls.flatMap Call.appended).length ≤ answers.countP WriteAnswer.isWrite →
      ∃ f' rest, f.opened.runClose calls answers = .returned f' rest) := by
  have hrun := fun calls => does_run f.opened_inBuffer calls answers
  have hclose := does_runClose f.opened_inBuffer calls answers
  have happended := f.appended_opened calls
  refine ⟨(hrun calls).inBuffer, hclose.inBuffer, fun f' rest h => ?_, fun f' rest h => ?_,
    fun f' rest h => ?_, fun enough => ?_⟩
  · have hlast := hrun (calls ++ [.flush])
    rw [h, applyAll, List.foldl_append] at hlast
    exact (congrArg BufferedFile.content hlast.view_of_returned).trans happended
  · have hlast := hrun (calls ++ [.sync])
    rw [h, applyAll, List.foldl_append] at hlast
    exact (congrArg BufferedFile.content hlast.view_of_returned).trans happended
  · rw [h] at hclose
    exact (congrArg BufferedFile.content hclose.view_of_returned).trans happended
  · refine hclose.exists_returned rfl ?_
    rw [← happended] at enough
    exact enough

/-- A file whose buffer is all zeros. -/
def zeroed : PosixWritableFile := ⟨List.replicate kWritableFileBufferSize 0, 0, [], List.length_replicate⟩

/-- An interrupted call, and two short ones. -/
theorem content_eq_appended_two : ∃ f' rest,
    zeroed.opened.runClose [.append [1, 2], .flush, .append [3]]
      [.interrupted, .wrote 0, .wrote 0, .wrote 5] = .returned f' rest ∧ f'.content = [1, 2, 3] := by
  obtain ⟨-, -, -, -, hcontent, hreturns⟩ := zeroed.content_eq_appended
    [.append [1, 2], .flush, .append [3]] [.interrupted, .wrote 0, .wrote 0, .wrote 5]
  obtain ⟨f', rest, h⟩ := hreturns (by decide)
  exact ⟨f', rest, h, hcontent f' rest h⟩

/-! ## The file layer of the value logs -/

section Posix

variable {p : Posix}

/-- A file of the layer in which writes may fail. -/
def ofPosix (p : Posix) (i : ℕ) : BufferedFile := ⟨p.vlogs.data i, p.buf i⟩

theorem data_writeUnbuffered (succeeds : p.answers = fun _ => none) (i : ℕ) (data : Bytes) :
    (Posix.writeUnbuffered i data p).2.vlogs.data i = p.vlogs.data i ++ data ∧
      (Posix.writeUnbuffered i data p).2.buf = p.buf := by
  unfold Posix.writeUnbuffered
  split
  case isTrue hempty => simp [List.isEmpty_iff.mp hempty]
  case isFalse =>
    have hanswer : p.answer = none := congrFun succeeds 0
    rw [hanswer]
    simp [Posix.written, Posix.called]

/-- Without failures, `FlushBuffer` of the layer is that of a file behind a buffer. -/
theorem ofPosix_flushBuffer (succeeds : p.answers = fun _ => none) (i : ℕ) :
    ofPosix (Posix.flushBuffer i p).2 i = (ofPosix p i).flush := by
  obtain ⟨hdata, -⟩ := data_writeUnbuffered succeeds i (p.buf i)
  ext1
  · exact hdata
  · exact Function.update_self ..

/-- **Without failures, the layer in which writes may fail is a file behind a buffer**, and so its
files are those of `PosixWritableFile`. -/
theorem ofPosix_append (succeeds : p.answers = fun _ => none) (i : ℕ) (data : Bytes) :
    ofPosix (Posix.append i data p).2 i = (ofPosix p i).append data := by
  let copySize := min data.length (kWritableFileBufferSize - (p.buf i).length)
  let p₁ := p.setBuf i (p.buf i ++ data.take copySize)
  have hsucceeds : p₁.answers = fun _ => none := succeeds
  have hview : ofPosix p₁ i = ⟨p.vlogs.data i, p.buf i ++ data.take copySize⟩ := by
    ext1
    · rfl
    · exact Function.update_self ..
  have hok := (Posix.constant_flushBuffer hsucceeds i).2 rfl
  have hflush := ofPosix_flushBuffer hsucceeds i
  have hanswers := (Posix.constant_flushBuffer hsucceeds i).1
  have happend : Posix.append i data p = if (data.drop copySize).isEmpty then (true, p₁)
    else if !(Posix.flushBuffer i p₁).1 then (false, (Posix.flushBuffer i p₁).2)
    else if (data.drop copySize).length < kWritableFileBufferSize then
      (true, (Posix.flushBuffer i p₁).2.setBuf i (data.drop copySize))
    else Posix.writeUnbuffered i (data.drop copySize) (Posix.flushBuffer i p₁).2 := rfl
  have happend' : (ofPosix p i).append data = if data.drop copySize = [] then ofPosix p₁ i
    else if (data.drop copySize).length < kWritableFileBufferSize then
      ⟨(ofPosix p₁ i).flush.content, data.drop copySize⟩
    else ⟨(ofPosix p₁ i).flush.content ++ data.drop copySize, []⟩ := by
    rw [hview]
    rfl
  rw [happend, happend', hok]
  simp only [List.isEmpty_iff, Bool.not_true, Bool.false_eq_true, if_false, ← hflush]
  split
  · rfl
  · split
    · ext1
      · rfl
      · exact Function.update_self ..
    · obtain ⟨hdata, hbuf⟩ := data_writeUnbuffered hanswers i (data.drop copySize)
      ext1
      · exact hdata
      · refine (congrFun hbuf i).trans ?_
        exact congrArg BufferedFile.held hflush

end Posix

end PosixWritableFile

end Lsmkv
