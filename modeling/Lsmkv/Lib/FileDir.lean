import Mathlib.Data.List.Infix
import Mathlib.Logic.Function.Basic

/-!
# Directories of append-only files

A directory maps names to inodes and inodes to contents.  Unlinking a name leaves the
contents of its inode alone, so a handle that was opened before still reads what it
read; creating an existing name truncates its inode, creating a new name takes a fresh
one.

The one relation that clients need is `Dir.Grows`: a file keeps its inode and its
contents only get longer.  What was read at a fixed position of a file is then still
there (`Grows.trans`, and the lemmas that say which names an operation leaves growing).
-/

namespace Files

/-- A directory with files over `α`. -/
structure Dir (ν α : Type) where
  inode : ν → Option ℕ
  data : ℕ → List α
  next : ℕ

namespace Dir

variable {ν α : Type}

/-- The empty directory. -/
def empty : Dir ν α := ⟨fun _ => none, fun _ => [], 0⟩

/-- Set the contents of an open file. -/
def write (d : Dir ν α) (i : ℕ) (contents : List α) : Dir ν α :=
  { d with data := Function.update d.data i contents }

/-- Remove every name. -/
def unlinkAll (d : Dir ν α) : Dir ν α := { d with inode := fun _ => none }

/-- The contents of a name. -/
def contents (d : Dir ν α) (n : ν) : Option (List α) := (d.inode n).map d.data

/-- Inodes in use are below the next one, and no two names share one. -/
structure WellFormed (d : Dir ν α) : Prop where
  lt_next : ∀ {n i}, d.inode n = some i → i < d.next
  injective : ∀ {m n i}, d.inode m = some i → d.inode n = some i → m = n

/-- The file under a name is still the same file, and is not shorter. -/
def Grows (d d' : Dir ν α) (n : ν) : Prop :=
  ∀ i, d.inode n = some i → d'.inode n = some i ∧ d.data i <+: d'.data i

theorem Grows.refl (d : Dir ν α) (n : ν) : d.Grows d n := fun _ h => ⟨h, List.prefix_refl _⟩

theorem Grows.trans {d d' d'' : Dir ν α} {n : ν} (h : d.Grows d' n) (h' : d'.Grows d'' n) :
    d.Grows d'' n := by
  intro i hi
  obtain ⟨hi', hpre⟩ := h i hi
  obtain ⟨hi'', hpre'⟩ := h' i hi'
  exact ⟨hi'', hpre.trans hpre'⟩

/-- A file that grows still exists. -/
theorem Grows.inode_ne_none {d d' : Dir ν α} {n : ν} (h : d.Grows d' n) (ne : d.inode n ≠ none) :
    d'.inode n ≠ none := by
  obtain ⟨i, hi⟩ := Option.ne_none_iff_exists'.mp ne
  simp [(h i hi).1]

theorem wellFormed_empty : (empty : Dir ν α).WellFormed where
  lt_next h := by simp [empty] at h
  injective h := by simp [empty] at h

@[simp] theorem inode_write (d : Dir ν α) (i : ℕ) (c : List α) : (d.write i c).inode = d.inode := rfl

@[simp] theorem data_write_self (d : Dir ν α) (i : ℕ) (c : List α) : (d.write i c).data i = c := by
  simp [write]

theorem WellFormed.write {d : Dir ν α} (wf : d.WellFormed) (i : ℕ) (c : List α) :
    (d.write i c).WellFormed := ⟨wf.lt_next, wf.injective⟩

/-- Writing more to one open file lets every file grow. -/
theorem grows_write {d : Dir ν α} {i : ℕ} {c : List α} (h : d.data i <+: c) (n : ν) :
    d.Grows (d.write i c) n := by
  intro j hj
  refine ⟨hj, ?_⟩
  by_cases hij : j = i
  · subst hij
    simpa using h
  · simp [Dir.write, Function.update_of_ne hij]

variable [DecidableEq ν]

/-- Open a name for writing: truncate the file if it exists, else create it. -/
def create (d : Dir ν α) (n : ν) : ℕ × Dir ν α :=
  match d.inode n with
  | some i => (i, { d with data := Function.update d.data i [] })
  | none =>
      (d.next, ⟨Function.update d.inode n (some d.next), Function.update d.data d.next [],
        d.next + 1⟩)

/-- Remove a name. -/
def unlink (d : Dir ν α) (n : ν) : Dir ν α := { d with inode := Function.update d.inode n none }

section Fresh

variable {d : Dir ν α} {n : ν}

@[simp] theorem create_fst (fresh : d.inode n = none) : (d.create n).1 = d.next := by
  simp [create, fresh]

theorem create_snd (fresh : d.inode n = none) :
    (d.create n).2 = ⟨Function.update d.inode n (some d.next),
      Function.update d.data d.next [], d.next + 1⟩ := by
  simp [create, fresh]

/-- A new name leaves every other file alone. -/
theorem WellFormed.grows_create (wf : d.WellFormed) (fresh : d.inode n = none) (m : ν) :
    d.Grows (d.create n).2 m := by
  intro i hi
  have hne : m ≠ n := by
    rintro rfl
    rw [fresh] at hi
    exact absurd hi (by simp)
  rw [create_snd fresh]
  have hlt := wf.lt_next hi
  simp [Function.update_of_ne hne, hi, Function.update_of_ne hlt.ne]

theorem WellFormed.create (wf : d.WellFormed) (fresh : d.inode n = none) :
    (d.create n).2.WellFormed := by
  rw [create_snd fresh]
  constructor
  · intro m i hi
    by_cases hm : m = n
    · subst hm
      simp only [Function.update_self, Option.some.injEq] at hi
      exact hi ▸ Nat.lt_succ_self _
    · simp only [Function.update_of_ne hm] at hi
      exact (wf.lt_next hi).trans (Nat.lt_succ_self _)
  · intro m m' i hm hm'
    by_cases h : m = n
    · by_cases h' : m' = n
      · rw [h, h']
      · subst h
        simp only [Function.update_self, Option.some.injEq] at hm
        simp only [Function.update_of_ne h'] at hm'
        exact absurd (wf.lt_next hm') (by simp [hm])
    · by_cases h' : m' = n
      · subst h'
        simp only [Function.update_self, Option.some.injEq] at hm'
        simp only [Function.update_of_ne h] at hm
        exact absurd (wf.lt_next hm) (by simp [hm'])
      · simp only [Function.update_of_ne h] at hm
        simp only [Function.update_of_ne h'] at hm'
        exact wf.injective hm hm'

end Fresh

/-- **Opening a name for writing**, whether the file exists or not: the name has a file, which
is empty, and the other names keep theirs. -/
theorem WellFormed.create_any {d : Dir ν α} (wf : d.WellFormed) (n : ν) :
    (d.create n).2.WellFormed ∧ (d.create n).2.inode n = some (d.create n).1 ∧
      (d.create n).2.data (d.create n).1 = [] ∧ (∀ m ≠ n, (d.create n).2.inode m = d.inode m) ∧
      (∀ i, d.inode n = some i → (d.create n).1 = i) ∧ ∀ m ≠ n, d.Grows (d.create n).2 m := by
  cases hn : d.inode n with
  | none =>
      refine ⟨wf.create hn, ?_, ?_, fun m hm => ?_, by simp, fun m _ => wf.grows_create hn m⟩
      · rw [create_snd hn, create_fst hn]
        exact Function.update_self _ _ _
      · rw [create_snd hn, create_fst hn]
        exact Function.update_self _ _ _
      · rw [create_snd hn]
        exact Function.update_of_ne hm _ _
  | some i =>
      have hcreate : d.create n = (i, { d with data := Function.update d.data i [] }) := by
        simp [Dir.create, hn]
      rw [hcreate]
      refine ⟨⟨wf.lt_next, wf.injective⟩, hn, Function.update_self _ _ _, fun _ _ => rfl, ?_, ?_⟩
      · intro j hj
        exact Option.some.inj hj
      · intro m hm j hj
        -- The file of another name is another file.
        have hne : j ≠ i := fun h => hm (wf.injective hj (h ▸ hn))
        exact ⟨hj, by simp [Function.update_of_ne hne]⟩

theorem WellFormed.unlink {d : Dir ν α} (wf : d.WellFormed) (n : ν) : (d.unlink n).WellFormed := by
  constructor
  · intro m i hi
    by_cases hm : m = n
    · subst hm
      simp [Dir.unlink] at hi
    · simp only [Dir.unlink, Function.update_of_ne hm] at hi
      exact wf.lt_next hi
  · intro m m' i hm hm'
    by_cases h : m = n
    · subst h
      simp [Dir.unlink] at hm
    · by_cases h' : m' = n
      · subst h'
        simp [Dir.unlink] at hm'
      · simp only [Dir.unlink, Function.update_of_ne h] at hm
        simp only [Dir.unlink, Function.update_of_ne h'] at hm'
        exact wf.injective hm hm'

/-! ## Directories that differ by a shift

A directory in which the first `k` inodes were used up before answers like one in which they
were not. -/

/-- The second directory is the first with every inode moved up by `k`. -/
structure Shifted (k : ℕ) (d d' : Dir ν α) : Prop where
  inode_eq : ∀ n, d'.inode n = (d.inode n).map (· + k)
  next_eq : d'.next = d.next + k
  lt_next : ∀ {n i}, d.inode n = some i → i < d.next
  data_eq : ∀ i < d.next, d'.data (i + k) = d.data i

section Shifted

variable {k : ℕ} {d d' : Dir ν α}

omit [DecidableEq ν] in
/-- What a name reads does not depend on the shift. -/
theorem Shifted.contents_eq (h : Shifted k d d') (n : ν) : d'.contents n = d.contents n := by
  cases hn : d.inode n with
  | none => simp [contents, h.inode_eq, hn]
  | some i => simp [contents, h.inode_eq, hn, h.data_eq i (h.lt_next hn)]

omit [DecidableEq ν] in
theorem Shifted.write (h : Shifted k d d') {i : ℕ} (used : i < d.next) (c : List α) :
    Shifted k (d.write i c) (d'.write (i + k) c) := by
  refine ⟨h.inode_eq, h.next_eq, h.lt_next, fun j hj => ?_⟩
  by_cases hij : j = i
  · subst hij
    simp [Dir.write]
  · have hshift : j + k ≠ i + k := fun heq => hij (Nat.add_right_cancel heq)
    simpa [Dir.write, Function.update_of_ne hij, Function.update_of_ne hshift] using h.data_eq j hj

theorem Shifted.unlink (h : Shifted k d d') (n : ν) : Shifted k (d.unlink n) (d'.unlink n) := by
  refine ⟨fun m => ?_, h.next_eq, fun {m i} hi => ?_, h.data_eq⟩
  · by_cases hm : m = n
    · subst hm
      simp [Dir.unlink]
    · simpa [Dir.unlink, Function.update_of_ne hm] using h.inode_eq m
  · by_cases hm : m = n
    · subst hm
      simp [Dir.unlink] at hi
    · simp only [Dir.unlink, Function.update_of_ne hm] at hi
      exact h.lt_next hi

theorem Shifted.unlink_all (h : Shifted k d d') (ns : List ν) :
    Shifted k (ns.foldl Dir.unlink d) (ns.foldl Dir.unlink d') := by
  induction ns generalizing d d' with
  | nil => exact h
  | cons n ns ih => exact ih (h.unlink n)

theorem next_unlink_all (d : Dir ν α) (ns : List ν) : (ns.foldl Dir.unlink d).next = d.next := by
  induction ns generalizing d with
  | nil => rfl
  | cons n ns ih => exact ih (d.unlink n)

/-- **Opening a name for writing** takes the same inode, but for the shift. -/
theorem Shifted.create (h : Shifted k d d') (n : ν) :
    Shifted k (d.create n).2 (d'.create n).2 ∧ (d'.create n).1 = (d.create n).1 + k ∧
      (d.create n).1 < (d.create n).2.next ∧ d.next ≤ (d.create n).2.next := by
  cases hn : d.inode n with
  | none =>
      have hn' : d'.inode n = none := by simp [h.inode_eq, hn]
      rw [create_snd hn, create_snd hn', create_fst hn, create_fst hn']
      refine ⟨⟨fun m => ?_, ?_, fun {m i} hi => ?_, fun i hi => ?_⟩, h.next_eq, Nat.lt_succ_self _,
        Nat.le_succ _⟩
      · by_cases hm : m = n
        · subst hm
          simp [h.next_eq]
        · simpa [Function.update_of_ne hm] using h.inode_eq m
      · simp only [h.next_eq]
        exact Nat.add_right_comm d.next k 1
      · by_cases hm : m = n
        · subst hm
          simp only [Function.update_self, Option.some.injEq] at hi
          exact hi ▸ Nat.lt_succ_self _
        · simp only [Function.update_of_ne hm] at hi
          exact (h.lt_next hi).trans (Nat.lt_succ_self _)
      · by_cases hlast : i = d.next
        · subst hlast
          simp [h.next_eq]
        · have hlt : i < d.next := lt_of_le_of_ne (Nat.lt_succ_iff.mp hi) hlast
          have hshift : i + k ≠ d'.next := fun heq => by
            rw [h.next_eq] at heq
            exact hlast (Nat.add_right_cancel heq)
          simpa [Function.update_of_ne hlast, Function.update_of_ne hshift] using h.data_eq i hlt
  | some i =>
      have hn' : d'.inode n = some (i + k) := by simp [h.inode_eq, hn]
      have hcreate : d.create n = (i, d.write i []) := by simp [Dir.create, Dir.write, hn]
      have hcreate' : d'.create n = (i + k, d'.write (i + k) []) := by
        simp [Dir.create, Dir.write, hn']
      rw [hcreate, hcreate']
      exact ⟨h.write (h.lt_next hn) [], rfl, h.lt_next hn, le_rfl⟩

end Shifted

end Dir

end Files
