import Lsmkv.PointRead

/-!
# Errors of a read of the levels

`LevelCache::get` (`src/levelcache.cpp`) looks a key up in the tables whose range contains it,
level by level.  `ReadBatch` (`src/include/reader.h`) takes the first answer of a level that is not
`NotFound`; a single table is read by `ReadOne`, several by one `Async_ReadOne` each.  Both are
parameters here, with a status other than `OK` as an error: a file that is missing, a footer or a
block that cannot be decoded.

Level 0 is left only where it answers `NotFound`.  The loop over the other levels is left only at
`OK`, and overwrites the status at every level with a table to read.  So an error of level 0 is
returned, and an error of a deeper level is returned exactly if the levels behind it do not mask it
(`get_eq_error_iff`, `Unmasked`): an older version of a level further down hides a newer one that
could not be read (`get_masks_error`).
-/

namespace Lsmkv

open ByteCode

/-- A status as the outcome of a call. -/
def Outcome.ofExcept {α : Type} : Except Code α → Outcome α
  | .ok a => .ok a
  | .error c => .fail c

namespace LevelCache

/-- What the lookup of a table gives: the location of a version, or a status. -/
abbrev Answer := Except Code VLogEntryInfo

/-- The loop of `ReadAsyncBatch` over the finished tasks. -/
def firstAnswer : List Answer → Answer
  | [] => .error .kNotFound
  | .ok info :: _ => .ok info
  | .error c :: answers => if c ≠ .kNotFound then .error c else firstAnswer answers

section Get

variable (readOne asyncReadOne : SSTFile VLogEntryInfo → Answer)

/-- The answers of the tables of a batch. -/
def answers (metas : List (SSTFile VLogEntryInfo)) : List Answer :=
  metas.map (if metas.length = 1 then readOne else asyncReadOne)

/-- `ReadBatch(metas, internal_key, vlog_info)`. -/
def readBatch : List (SSTFile VLogEntryInfo) → Answer
  | [f] => readOne f
  | metas => firstAnswer (metas.map asyncReadOne)

/-- The tables of a level whose range contains the key. -/
def candidates (u : Bytes) (level : Level VLogEntryInfo) : List (SSTFile VLogEntryInfo) :=
  level.filter fun f => f.mayHold u

/-- The loop of `LevelCache::get` over the levels from 1 on. -/
def getDeeper (u : Bytes) : List (Level VLogEntryInfo) → Answer → Answer
  | [], s => s
  | level :: levels, s =>
      let tmp := candidates u level
      if tmp.isEmpty then getDeeper u levels s
      else
        match readBatch readOne asyncReadOne tmp with
        | .ok info => .ok info
        | s => getDeeper u levels s

/-- `LevelCache::get(key, info)`, on level 0 and the levels behind it. -/
def get (u : Bytes) (level0 : Level VLogEntryInfo) (levels : List (Level VLogEntryInfo)) : Answer :=
  let tmp := candidates u level0.reverse
  let s := if tmp.isEmpty then .error .kNotFound else readBatch readOne asyncReadOne tmp
  match s with
  | .error .kNotFound => getDeeper readOne asyncReadOne u levels s
  | s => s

end Get

/-- No level masks an error of the levels before them: none answers `OK`, and the last one with a
table to read ends with the same status. -/
def Unmasked (readOne asyncReadOne : SSTFile VLogEntryInfo → Answer) (u : Bytes)
    (levels : List (Level VLogEntryInfo)) (c : Code) : Prop :=
  (∀ level ∈ levels, ∀ info, readBatch readOne asyncReadOne (candidates u level) ≠ .ok info) ∧
    ∀ level, (levels.filter fun l => !(candidates u l).isEmpty).getLast? = some level →
      readBatch readOne asyncReadOne (candidates u level) = .error c

section Levels

variable {readOne asyncReadOne : SSTFile VLogEntryInfo → Answer} {u : Bytes} {c : Code}

/-! ## One level -/

theorem firstAnswer_eq (rs : List Answer) :
    firstAnswer rs = (rs.find? fun r => decide (r ≠ .error .kNotFound)).getD (.error .kNotFound) := by
  induction rs with
  | nil => rfl
  | cons r rs ih =>
      cases r with
      | ok info => rfl
      | error c =>
          by_cases hc : c = .kNotFound
          · subst hc
            rw [firstAnswer, if_neg (by simp), ih, List.find?_cons_of_neg (by simp)]
          · rw [firstAnswer, if_pos hc, List.find?_cons_of_pos (by simpa using hc)]
            rfl

/-- A batch answers what its first table other than `NotFound` answers. -/
theorem readBatch_eq_firstAnswer (metas : List (SSTFile VLogEntryInfo)) :
    readBatch readOne asyncReadOne metas = firstAnswer (answers readOne asyncReadOne metas) := by
  match metas with
  | [] => rfl
  | [f] =>
      cases hread : readOne f with
      | ok info => simp [readBatch, answers, hread, firstAnswer]
      | error c => by_cases hc : c = .kNotFound <;> simp [readBatch, answers, hread, firstAnswer, hc]
  | f :: f' :: fs => simp [readBatch, answers]

theorem readBatch_of_quiet {metas : List (SSTFile VLogEntryInfo)}
    (quiet : ∀ r ∈ answers readOne asyncReadOne metas, r = .error .kNotFound) :
    readBatch readOne asyncReadOne metas = .error .kNotFound := by
  have hnone : (answers readOne asyncReadOne metas).find?
      (fun r => decide (r ≠ .error .kNotFound)) = none :=
    List.find?_eq_none.mpr fun r hr => by simp [quiet r hr]
  rw [readBatch_eq_firstAnswer, firstAnswer_eq, hnone]
  rfl

theorem readBatch_of_fails {metas : List (SSTFile VLogEntryInfo)}
    (fails : (answers readOne asyncReadOne metas).find? (fun r => decide (r ≠ .error .kNotFound))
      = some (.error c)) : readBatch readOne asyncReadOne metas = .error c := by
  rw [readBatch_eq_firstAnswer, firstAnswer_eq, fails]
  rfl

/-- Where a table does not answer `NotFound`, there is one. -/
theorem candidates_ne_nil {metas : List (SSTFile VLogEntryInfo)}
    (fails : (answers readOne asyncReadOne metas).find? (fun r => decide (r ≠ .error .kNotFound))
      = some (.error c)) : metas.isEmpty = false := by
  cases metas with
  | nil => simp [answers] at fails
  | cons f metas => rfl

/-! ## The loop over the levels -/

/-- **Where the loop over the deeper levels ends with an error.** -/
theorem getDeeper_eq_error_iff (levels : List (Level VLogEntryInfo)) (s : Answer) :
    getDeeper readOne asyncReadOne u levels s = .error c ↔
      (∀ level ∈ levels, ∀ info, readBatch readOne asyncReadOne (candidates u level) ≠ .ok info) ∧
        (((levels.filter fun l => !(candidates u l).isEmpty).getLast?.map fun level =>
          readBatch readOne asyncReadOne (candidates u level)).getD s) = .error c := by
  induction levels generalizing s with
  | nil => simp [getDeeper]
  | cons level levels ih =>
      rw [getDeeper, List.forall_mem_cons]
      cases hempty : (candidates u level).isEmpty with
      | true =>
          have hnone : ∀ info, readBatch readOne asyncReadOne (candidates u level) ≠ .ok info := by
            rw [List.isEmpty_iff.mp hempty]
            simp [readBatch, firstAnswer]
          rw [if_pos rfl, ih, List.filter_cons_of_neg (by simp [hempty])]
          exact ⟨fun h => ⟨⟨hnone, h.1⟩, h.2⟩, fun h => ⟨h.1.2, h.2⟩⟩
      | false =>
          rw [if_neg Bool.false_ne_true, List.filter_cons_of_pos (by simp [hempty]),
            List.getLast?_cons]
          cases hbatch : readBatch readOne asyncReadOne (candidates u level) with
          | ok info => simp
          | error c' =>
              simp only [ih, ne_eq, reduceCtorEq, not_false_eq_true, implies_true, true_and]
              cases (levels.filter fun l => !(candidates u l).isEmpty).getLast? with
              | none => simp [hbatch]
              | some last => simp

/-- Levels whose tables answer `NotFound` leave the status as it is. -/
theorem getDeeper_of_quiet {before : List (Level VLogEntryInfo)}
    (quiet : ∀ l ∈ before, ∀ r ∈ answers readOne asyncReadOne (candidates u l),
      r = .error .kNotFound) (levels : List (Level VLogEntryInfo)) :
    getDeeper readOne asyncReadOne u (before ++ levels) (.error .kNotFound)
      = getDeeper readOne asyncReadOne u levels (.error .kNotFound) := by
  induction before with
  | nil => rfl
  | cons level before ih =>
      have hrest := ih fun l hl => quiet l (List.mem_cons_of_mem _ hl)
      rw [List.cons_append, getDeeper]
      split
      · exact hrest
      · rw [readBatch_of_quiet (quiet level List.mem_cons_self)]
        exact hrest

/-- **An error is returned exactly if it is not masked.**  The tables whose range contains the key
are taken level by level, and the first of them that does not answer `NotFound` fails. -/
theorem get_eq_error_iff {level0 level : Level VLogEntryInfo}
    {levels before after : List (Level VLogEntryInfo)} (failed : c ≠ .kNotFound)
    (order : level0.reverse :: levels = before ++ level :: after)
    (quiet : ∀ l ∈ before, ∀ r ∈ answers readOne asyncReadOne (candidates u l),
      r = .error .kNotFound)
    (fails : (answers readOne asyncReadOne (candidates u level)).find?
      (fun r => decide (r ≠ .error .kNotFound)) = some (.error c)) :
    get readOne asyncReadOne u level0 levels = .error c
      ↔ before = [] ∨ Unmasked readOne asyncReadOne u after c := by
  have hbatch := readBatch_of_fails fails
  have hempty := candidates_ne_nil fails
  cases before with
  | nil =>
      obtain ⟨rfl, rfl⟩ := List.cons.inj order
      refine iff_of_true ?_ (.inl rfl)
      simp only [get, hempty, Bool.false_eq_true, if_false, hbatch]
      split
      · rename_i heq
        exact absurd (Except.error.inj heq) failed
      · rfl
  | cons first before =>
      rw [List.cons_append] at order
      obtain ⟨rfl, rfl⟩ := List.cons.inj order
      have hfirst := readBatch_of_quiet (quiet _ List.mem_cons_self)
      have hget : get readOne asyncReadOne u level0 (before ++ level :: after)
          = getDeeper readOne asyncReadOne u after (.error c) := by
        simp only [get, hfirst, ite_self]
        rw [getDeeper_of_quiet fun l hl => quiet l (List.mem_cons_of_mem _ hl), getDeeper, hempty,
          if_neg Bool.false_ne_true, hbatch]
      rw [hget, getDeeper_eq_error_iff, Unmasked, or_iff_right (List.cons_ne_nil _ _)]
      cases (after.filter fun l => !(candidates u l).isEmpty).getLast? with
      | none => simp
      | some last => simp

end Levels

/-! ## A masked error -/

/-- A table with one version of the key `1`. -/
def oneVersion (fileNumber seq : ℕ) : SSTFile VLogEntryInfo :=
  ⟨fileNumber, .ofWrite [1] seq .kTypeValue, .ofWrite [1] seq .kTypeValue, 0,
    [⟨.ofWrite [1] seq .kTypeValue, ⟨seq, 0, 1⟩⟩]⟩

/-- The lookups of the key `1` when the file of table 7 is gone. -/
def withoutSeven (f : SSTFile VLogEntryInfo) : Answer :=
  if f.fileNumber = 7 then .error .kIOError
  else (f.entries.head?.map fun e => .ok e.value).getD (.error .kNotFound)

/-- Behind level 1 there is nothing to read, so its error is returned. -/
theorem get_error_kept :
    get withoutSeven withoutSeven [1] [] [[oneVersion 7 5], []] = .error .kIOError := by
  have horder : ([] : Level VLogEntryInfo).reverse :: [[oneVersion 7 5], []]
      = [[]] ++ [oneVersion 7 5] :: [[]] := rfl
  refine (get_eq_error_iff (by decide) horder ?_ (by decide)).mpr (.inr ⟨?_, ?_⟩)
  · simp [candidates, answers]
  · simp [candidates, readBatch, firstAnswer]
  · simp [candidates]

/-- The newer version of the key is in a table of level 1 that cannot be opened, and an older one is
in level 2. -/
theorem get_masks_error :
    ¬ ∀ (read : SSTFile VLogEntryInfo → Answer) (u : Bytes) (level0 level : Level VLogEntryInfo)
      (levels before after : List (Level VLogEntryInfo)) (c : Code), c ≠ .kNotFound →
      level0.reverse :: levels = before ++ level :: after →
      (∀ l ∈ before, ∀ r ∈ answers read read (candidates u l), r = .error .kNotFound) →
      (answers read read (candidates u level)).find? (fun r => decide (r ≠ .error .kNotFound))
        = some (.error c) →
      get read read u level0 levels = .error c := by
  intro claim
  have herror := claim withoutSeven [1] [] [oneVersion 7 5] [[oneVersion 7 5], [oneVersion 3 2]]
    [[]] [[oneVersion 3 2]] .kIOError (by decide) rfl (by simp [candidates, answers]) (by decide)
  have hget : get withoutSeven withoutSeven [1] [] [[oneVersion 7 5], [oneVersion 3 2]]
      = .ok ⟨2, 0, 1⟩ := by decide
  rw [hget] at herror
  exact absurd herror (by decide)

/-! ## The levels of the store -/

section Store

variable {sstFiles : ℕ → Bool} {query : InternalKey} {read : SSTFile VLogEntryInfo → Answer}

/-- With one kind of lookup a batch is its first answer. -/
theorem readBatch_same (metas : List (SSTFile VLogEntryInfo)) :
    readBatch read read metas = firstAnswer (metas.map read) := by
  rw [readBatch_eq_firstAnswer, answers, ite_self]

theorem readBatch_eq_ofExcept (agree : ∀ f, openAndRead sstFiles query f = .ofExcept (read f))
    (metas : List (SSTFile VLogEntryInfo)) :
    Lsmkv.readBatch sstFiles query metas = .ofExcept (firstAnswer (metas.map read)) := by
  induction metas with
  | nil => rfl
  | cons f metas ih =>
      rw [Lsmkv.readBatch, agree f, List.map_cons]
      cases read f with
      | ok info => rfl
      | error c =>
          by_cases hc : c = .kNotFound
          · subst hc
            exact ih
          · rw [firstAnswer, if_pos hc]
            cases c <;> first | exact absurd rfl hc | rfl

theorem getDeeper_eq_ofExcept (agree : ∀ f, openAndRead sstFiles query f = .ofExcept (read f))
    (levels : List (Level VLogEntryInfo)) (s : Answer) (notOk : ∀ info, s ≠ .ok info) :
    Lsmkv.getDeeper sstFiles query levels (.ofExcept s)
      = .ofExcept (getDeeper read read query.userKey levels s) := by
  induction levels generalizing s with
  | nil => rfl
  | cons level levels ih =>
      have htmp : (level.filter fun f => f.mayHold query.userKey) = candidates query.userKey level := rfl
      simp only [Lsmkv.getDeeper, getDeeper, readBatch_same]
      rw [htmp, readBatch_eq_ofExcept agree]
      by_cases hempty : (candidates query.userKey level).isEmpty = true
      · rw [if_pos hempty, if_pos hempty]
        cases s with
        | ok info => exact absurd rfl (notOk info)
        | error c => exact ih (.error c) notOk
      · rw [if_neg hempty, if_neg hempty]
        cases firstAnswer ((candidates query.userKey level).map read) with
        | ok info => rfl
        | error c => exact ih (.error c) fun info => by simp

/-- **The read of the store's levels** is this one, where each lookup opens and reads a table. -/
theorem getLevels_eq_get (agree : ∀ f, openAndRead sstFiles query f = .ofExcept (read f))
    (level0 : Level VLogEntryInfo) (levels : List (Level VLogEntryInfo)) :
    getLevels sstFiles query (level0 :: levels)
      = .ofExcept (get read read query.userKey level0 levels) := by
  have hdeeper := getDeeper_eq_ofExcept agree levels (.error .kNotFound) fun info => by simp
  have hbatch := readBatch_eq_ofExcept agree (candidates query.userKey level0.reverse)
  have hfirst : (if (candidates query.userKey level0.reverse).isEmpty then .error .kNotFound
      else firstAnswer ((candidates query.userKey level0.reverse).map read))
      = firstAnswer ((candidates query.userKey level0.reverse).map read) := by
    cases candidates query.userKey level0.reverse with
    | nil => rfl
    | cons f metas => rfl
  simp only [get, readBatch_same, hfirst]
  rw [candidates] at hbatch
  rw [getLevels, hbatch, ← candidates]
  cases firstAnswer ((candidates query.userKey level0.reverse).map read) with
  | ok info => rfl
  | error c =>
      by_cases hc : c = .kNotFound
      · subst hc
        exact hdeeper
      · cases c <;> first | exact absurd rfl hc | rfl

end Store

end LevelCache

end Lsmkv
