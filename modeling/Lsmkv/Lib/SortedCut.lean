import Mathlib.Data.List.TakeWhile
import Mathlib.Order.Lattice

/-!
# Cutting a sorted list at a key

A search in a list that is sorted by a key goes on while the keys are below a bound and stops at the
first that is not.  What it has passed and what it stands before are then filters of the list
(`takeWhile_eq_filter`, `dropWhile_eq_filter`), since a test that fails at an element fails at all
later ones.  A range of keys is two such cuts (`takeWhile_dropWhile_lt_le`), and what is left behind
the range is one (`dropWhile_dropWhile_lt_le`).

Where the list is kept in blocks, the search looks at the last element of each block only: what it
passes is below the bound, the block it stops at has something that is not, and nothing behind this
block is below the bound (`below_of_mem_takeWhile`, `stops_at_block`).
-/

namespace SortedCut

variable {α κ : Type*} {p : α → Bool} {l : List α}

theorem takeWhile_eq_filter (closed : l.Pairwise fun a b => p b = true → p a = true) :
    l.takeWhile p = l.filter p := by
  induction l with
  | nil => rfl
  | cons a l ih =>
      obtain ⟨hhead, htail⟩ := List.pairwise_cons.mp closed
      by_cases ha : p a = true
      · rw [List.takeWhile_cons_of_pos ha, List.filter_cons_of_pos ha, ih htail]
      · rw [List.takeWhile_cons_of_neg ha, eq_comm, List.filter_eq_nil_iff]
        intro b hb hpb
        rcases List.mem_cons.mp hb with rfl | hb
        · exact ha hpb
        · exact ha (hhead b hb hpb)

theorem dropWhile_eq_filter (closed : l.Pairwise fun a b => p b = true → p a = true) :
    l.dropWhile p = l.filter fun a => !p a := by
  induction l with
  | nil => rfl
  | cons a l ih =>
      obtain ⟨hhead, htail⟩ := List.pairwise_cons.mp closed
      by_cases ha : p a = true
      · rw [List.dropWhile_cons_of_pos ha, List.filter_cons_of_neg (by simpa using ha), ih htail]
      · rw [List.dropWhile_cons_of_neg ha, eq_comm, List.filter_eq_self]
        intro b hb
        rcases List.mem_cons.mp hb with rfl | hb
        · simpa using ha
        · simpa using fun hpb => ha (hhead b hb hpb)

variable [LinearOrder κ] [DecidableLT κ] [DecidableLE κ] {f : α → κ}

omit [DecidableLE κ] in
theorem closed_lt (sorted : l.Pairwise fun a b => f a ≤ f b) (k : κ) :
    l.Pairwise fun a b => decide (f b < k) = true → decide (f a < k) = true :=
  sorted.imp fun h hb => decide_eq_true (h.trans_lt (of_decide_eq_true hb))

omit [DecidableLT κ] in
theorem closed_le (sorted : l.Pairwise fun a b => f a ≤ f b) (k : κ) :
    l.Pairwise fun a b => decide (f b ≤ k) = true → decide (f a ≤ k) = true :=
  sorted.imp fun h hb => decide_eq_true (h.trans (of_decide_eq_true hb))

/-- Behind what is below a key stands what is at or above it. -/
theorem dropWhile_lt (sorted : l.Pairwise fun a b => f a ≤ f b) (k : κ) :
    (l.dropWhile fun a => decide (f a < k)) = l.filter fun a => decide (k ≤ f a) := by
  rw [dropWhile_eq_filter (closed_lt sorted k)]
  refine List.filter_congr fun a _ => ?_
  rw [← decide_not]
  simp only [not_lt]

/-- **A range of keys**: leaving out what is below it and stopping behind it is filtering. -/
theorem takeWhile_dropWhile_lt_le (sorted : l.Pairwise fun a b => f a ≤ f b) (k1 k2 : κ) :
    (l.dropWhile fun a => decide (f a < k1)).takeWhile (fun a => decide (f a ≤ k2))
      = l.filter fun a => decide (k1 ≤ f a ∧ f a ≤ k2) := by
  have hrest := sorted.sublist (List.dropWhile_sublist fun a => decide (f a < k1))
  rw [takeWhile_eq_filter (closed_le hrest k2), dropWhile_lt sorted, List.filter_filter]
  refine List.filter_congr fun a _ => ?_
  rw [← Bool.decide_and, decide_eq_decide, and_comm]

/-- Behind a range that is not reversed stands what is above it. -/
theorem dropWhile_dropWhile_lt_le (sorted : l.Pairwise fun a b => f a ≤ f b) {k1 k2 : κ} (le : k1 ≤ k2) :
    (l.dropWhile fun a => decide (f a < k1)).dropWhile (fun a => decide (f a ≤ k2))
      = l.filter fun a => decide (k2 < f a) := by
  have hrest := sorted.sublist (List.dropWhile_sublist fun a => decide (f a < k1))
  rw [dropWhile_eq_filter (closed_le hrest k2), dropWhile_lt sorted, List.filter_filter]
  refine List.filter_congr fun a _ => ?_
  rw [← decide_not, ← Bool.decide_and, decide_eq_decide, not_le]
  exact ⟨And.left, fun h => ⟨h, (le.trans_lt h).le⟩⟩

/-- The last element of a block is below a key. -/
def lastBelow (f : α → κ) (k : κ) (block : List α) : Bool := block.getLast?.any fun a => decide (f a < k)

omit [DecidableLT κ] [DecidableLE κ] in
theorem le_getLast (sorted : l.Pairwise fun a b => f a ≤ f b) (ne : l ≠ []) {a : α} (mem : a ∈ l) :
    f a ≤ f (l.getLast ne) := by
  have hsplit := List.dropLast_concat_getLast ne
  rw [← hsplit] at sorted mem
  rcases List.mem_append.mp mem with hinit | hlast
  · exact (List.pairwise_append.mp sorted).2.2 a hinit _ (List.mem_singleton_self _)
  · rw [List.mem_singleton.mp hlast]

omit [DecidableLE κ] in
theorem lastBelow_eq {block : List α} (ne : block ≠ []) (k : κ) :
    lastBelow f k block = decide (f (block.getLast ne) < k) := by
  rw [lastBelow, List.getLast?_eq_some_getLast ne, Option.any_some]

variable {blocks : List (List α)}

omit [DecidableLE κ] in
theorem below_of_mem_takeWhile (sorted : blocks.flatten.Pairwise fun a b => f a ≤ f b)
    (nonempty : ∀ block ∈ blocks, block ≠ []) {k : κ} :
    ∀ block ∈ blocks.takeWhile (lastBelow f k), ∀ a ∈ block, f a < k := by
  intro block hblock a ha
  have hmem := (List.takeWhile_sublist _).subset hblock
  have hlast := List.mem_takeWhile_imp hblock
  rw [lastBelow_eq (nonempty block hmem)] at hlast
  exact (le_getLast ((List.pairwise_flatten.mp sorted).1 block hmem) _ ha).trans_lt
    (of_decide_eq_true hlast)

omit [DecidableLE κ] in
theorem stops_at_block (sorted : blocks.flatten.Pairwise fun a b => f a ≤ f b)
    (nonempty : ∀ block ∈ blocks, block ≠ []) {k : κ} {block : List α} {rest : List (List α)}
    (stops : blocks.dropWhile (lastBelow f k) = block :: rest) :
    (∃ a ∈ block, k ≤ f a) ∧ ∀ later ∈ rest, ∀ a ∈ later, k ≤ f a := by
  have hsub : (block :: rest).Sublist blocks := stops ▸ List.dropWhile_sublist _
  have hne := nonempty block (hsub.subset List.mem_cons_self)
  have hlast : k ≤ f (block.getLast hne) := by
    have hhead := List.head?_dropWhile_not (lastBelow f k) blocks
    rw [stops] at hhead
    have hnot : lastBelow f k block = false := by simpa using hhead
    rw [lastBelow_eq hne, decide_eq_false_iff_not, not_lt] at hnot
    exact hnot
  refine ⟨⟨_, List.getLast_mem hne, hlast⟩, fun later hlater a ha => hlast.trans ?_⟩
  have hahead := (List.pairwise_flatten.mp sorted).2.sublist hsub
  exact (List.pairwise_cons.mp hahead).1 later hlater _ (List.getLast_mem hne) a ha

end SortedCut
