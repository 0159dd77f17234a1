import Lsmkv.Lib.Interleaving
import Mathlib.Algebra.BigOperators.Group.Finset.Piecewise
import Mathlib.Algebra.Order.BigOperators.Group.Finset
import Mathlib.Algebra.Order.Group.Multiset

/-!
# What threads hold

A thread that has taken something and not passed it on holds it, and where it is says what
that is.  `Config.sum` adds up what all threads hold: tokens, debts, or the elements of a
multiset.  A step changes the sum by what the thread that moves takes or passes on, so what is
nowhere lost is a sum over the shared state and the threads that no step changes.

Where what is held is not said by the place alone, every owner has a multiset of its own.  If
`everything` has no repetitions, then nothing has two owners, and whoever changes what it owns
leaves the others alone (`notMem_of_ne`).
-/

namespace Interleaving

section Sum

variable {ι M : Type*} [Fintype ι] [DecidableEq ι] [AddCommMonoid M]

/-- A sum behind the change of one summand. -/
theorem sum_update (f : ι → M) (i : ι) (x : M) :
    ∑ j, Function.update f i x j + f i = ∑ j, f j + x := by
  rw [Finset.sum_update_of_mem (Finset.mem_univ i),
    ← Finset.add_sum_erase Finset.univ f (Finset.mem_univ i), Finset.sdiff_singleton_eq_erase]
  ac_rfl

variable {σ π : Type*} (f : π → M)

omit [DecidableEq ι] in
/-- What all threads hold together. -/
def Config.sum (c : Config ι σ π) : M := ∑ i, f (c.pc i)

/-- A step changes the sum by the thread that moves. -/
theorem Config.sum_move (c : Config ι σ π) (i : ι) (s : σ) (p : π) :
    (c.move i s p).sum f + f (c.pc i) = c.sum f + f p := by
  have hmoved : ∀ j, f ((c.move i s p).pc j) = Function.update (fun j => f (c.pc j)) i (f p) j :=
    fun j => Function.apply_update (fun _ => f) c.pc i p j
  unfold Config.sum
  rw [← sum_update (fun j => f (c.pc j)) i (f p), Finset.sum_congr rfl fun j _ => hmoved j]

end Sum

/-! ## Owners -/

section Owners

variable {ι α : Type*} [Fintype ι]

/-- What all owners have. -/
def everything (own : ι → List α) : Multiset α := ∑ i, (own i : Multiset α)

variable {own : ι → List α} {i j : ι} {a : α}

theorem mem_everything : a ∈ everything own ↔ ∃ i, a ∈ own i := by
  simp [everything, Multiset.mem_sum]

/-- An owner has no more than everything. -/
theorem le_everything (own : ι → List α) (i : ι) : (own i : Multiset α) ≤ everything own :=
  Finset.single_le_sum (f := fun i => (own i : Multiset α)) (fun _ _ => Multiset.zero_le _)
    (Finset.mem_univ i)

variable [DecidableEq ι]

/-- One owner changes what it has. -/
theorem everything_update (own : ι → List α) (i : ι) (l : List α) :
    everything (Function.update own i l) + own i = everything own + l := by
  have hcoe : ∀ j, (Function.update own i l j : Multiset α)
      = Function.update (fun j => (own j : Multiset α)) i l j :=
    fun j => Function.apply_update (fun _ (l : List α) => (l : Multiset α)) own i l j
  unfold everything
  rw [Finset.sum_congr rfl fun j _ => hcoe j, sum_update (fun j => (own j : Multiset α))]

/-- **An owner passes something on** to another one, or gets it from there. -/
theorem everything_exchange (ne : i ≠ j) {l l' : List α}
    (perm : (l ++ l').Perm (own i ++ own j)) :
    everything (Function.update (Function.update own i l) j l') = everything own := by
  have hsame : (l : Multiset α) + l' = own i + own j := Multiset.coe_eq_coe.mpr perm
  have hi := everything_update own i l
  have hj := everything_update (Function.update own i l) j l'
  rw [Function.update_of_ne ne.symm] at hj
  have hboth : everything (Function.update (Function.update own i l) j l') + (own i + own j)
      = everything own + (own i + own j) := by
    calc everything (Function.update (Function.update own i l) j l') + (own i + own j)
        = everything (Function.update (Function.update own i l) j l') + own j + own i := by ac_rfl
      _ = everything (Function.update own i l) + own i + l' := by rw [hj]; ac_rfl
      _ = everything own + (l + l') := by rw [hi]; ac_rfl
      _ = everything own + (own i + own j) := by rw [hsame]
  exact add_right_cancel hboth

/-- **Nothing has two owners.** -/
theorem notMem_of_ne (nodup : (everything own).Nodup) (ne : i ≠ j) (mem : a ∈ own i) :
    a ∉ own j := by
  intro hmem
  have hle : (own i : Multiset α) + own j ≤ everything own := by
    have hpair : ∑ k ∈ ({i, j} : Finset ι), (own k : Multiset α) ≤ everything own :=
      Finset.sum_le_sum_of_subset (Finset.subset_univ _)
    rwa [Finset.sum_pair ne] at hpair
  have hdisjoint := (Multiset.nodup_add.mp (Multiset.nodup_of_le hle nodup)).2.2
  exact Multiset.disjoint_left.mp hdisjoint mem hmem

end Owners

end Interleaving
