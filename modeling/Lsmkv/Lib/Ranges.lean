import Mathlib.Order.Interval.Set.Disjoint
import Mathlib.Data.List.Pairwise
import Mathlib.Tactic
import Mathlib.Order.CompletePartialOrder

/-!
# Ranges of addresses that are handed out of blocks

An allocator takes blocks of memory and hands parts of them out.  A range is a start and a size;
two ranges are apart if they have no address in common.  `Held blocks rs` says that every range of
`rs` lies in one of the blocks, unless it is empty, and that the ranges are pairwise apart.

There are two ways to hand something out: a range that is held is divided (`Held.divide`), or a
block is added that is apart from all blocks before, and its parts are (`Held.add`).
-/

namespace Ranges

/-- The addresses from `start` on, `size` many. -/
structure Range where
  start : ℕ
  size : ℕ
  deriving DecidableEq, Repr

namespace Range

/-- The addresses of a range. -/
def addresses (r : Range) : Set ℕ := Set.Ico r.start (r.start + r.size)

/-- The range lies between the ends of the other one. -/
def Inside (r s : Range) : Prop := s.start ≤ r.start ∧ r.start + r.size ≤ s.start + s.size

/-- The ranges have no address in common. -/
def Apart (r s : Range) : Prop := Disjoint r.addresses s.addresses

variable {r s t : Range}

theorem Inside.subset (h : r.Inside s) : r.addresses ⊆ s.addresses := Set.Ico_subset_Ico h.1 h.2

theorem Inside.trans (h : r.Inside s) (h' : s.Inside t) : r.Inside t := ⟨h'.1.trans h.1, h.2.trans h'.2⟩

theorem Apart.symm (h : r.Apart s) : s.Apart r := Disjoint.symm h

theorem Apart.mono {r' s' : Range} (h : r.Apart s) (hr : r'.Inside r) (hs : s'.Inside s) : r'.Apart s' :=
  Disjoint.mono hr.subset hs.subset h

/-- A range that ends where another one begins. -/
theorem apart_of_le (h : r.start + r.size ≤ s.start) : r.Apart s := by
  rw [Apart, addresses, addresses, Set.Ico_disjoint_Ico]
  exact (min_le_left _ _).trans (h.trans (le_max_right _ _))

theorem apart_of_size_eq_zero (h : s.size = 0) : r.Apart s := by
  rw [Apart, addresses, addresses, h, Nat.add_zero, Set.Ico_self]
  exact disjoint_bot_right

end Range

open Range

/-- The ranges lie in blocks, unless they are empty, and are pairwise apart. -/
structure Held (blocks rs : List Range) : Prop where
  inside : ∀ r ∈ rs, r.size = 0 ∨ ∃ b ∈ blocks, r.Inside b
  apart : rs.Pairwise Apart

variable {blocks rs ns : List Range} {b f f' r : Range}

theorem Held.tail (h : Held blocks (f :: rs)) : Held blocks rs :=
  ⟨fun r hr => h.inside r (List.mem_cons_of_mem _ hr), h.apart.of_cons⟩

/-- The order in which two ranges are listed does not matter. -/
theorem Held.swap (h : Held blocks (f :: r :: rs)) : Held blocks (r :: f :: rs) where
  inside s hs := h.inside s ((List.Perm.swap _ _ _).subset hs)
  apart := (List.Perm.swap f r rs).symm.pairwise h.apart Apart.symm

/-- **A range is divided** into two parts that are apart. -/
theorem Held.divide (h : Held blocks (f :: rs)) (left : f'.Inside f) (part : r.Inside f)
    (apart : f'.Apart r) : Held blocks (f' :: r :: rs) := by
  obtain ⟨hhead, hrest⟩ := List.pairwise_cons.mp h.apart
  have hinside : ∀ s : Range, s.Inside f → s.size = 0 ∨ ∃ b ∈ blocks, s.Inside b := by
    intro s hs
    rcases h.inside f List.mem_cons_self with hempty | ⟨b, hb, hf⟩
    · refine .inl ?_
      have := hs.1
      have := hs.2
      omega
    · exact .inr ⟨b, hb, hs.trans hf⟩
  have hself : ∀ s : Range, s.Inside s := fun s => ⟨le_rfl, le_rfl⟩
  refine ⟨fun s hs => ?_, List.pairwise_cons.mpr ⟨fun s hs => ?_, List.pairwise_cons.mpr ⟨fun s hs => ?_, hrest⟩⟩⟩
  · rcases List.mem_cons.mp hs with rfl | hs
    · exact hinside s left
    · rcases List.mem_cons.mp hs with rfl | hs
      · exact hinside s part
      · exact h.inside s (List.mem_cons_of_mem _ hs)
  · rcases List.mem_cons.mp hs with rfl | hs
    · exact apart
    · exact (hhead s hs).mono left (hself s)
  · exact (hhead s hs).mono part (hself s)

/-- **A block is added** that is apart from all others, and parts of it are handed out. -/
theorem Held.add (h : Held blocks rs) (fresh : ∀ b' ∈ blocks, b'.Apart b)
    (inside : ∀ n ∈ ns, n.Inside b) (apart : ns.Pairwise Apart) : Held (blocks ++ [b]) (ns ++ rs) where
  inside s hs := by
    rcases List.mem_append.mp hs with hs | hs
    · exact .inr ⟨b, List.mem_append_right _ (List.mem_singleton_self _), inside s hs⟩
    · rcases h.inside s hs with hempty | ⟨b', hb', hin⟩
      · exact .inl hempty
      · exact .inr ⟨b', List.mem_append_left _ hb', hin⟩
  apart := by
    refine List.pairwise_append.mpr ⟨apart, h.apart, fun n hn s hs => ?_⟩
    rcases h.inside s hs with hempty | ⟨b', hb', hin⟩
    · exact apart_of_size_eq_zero hempty
    · exact ((fresh b' hb').mono hin (inside n hn)).symm

end Ranges
