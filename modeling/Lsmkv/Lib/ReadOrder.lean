import Mathlib.Data.List.Basic
import Mathlib.Order.Lattice

/-!
# Reading sources in order

A reader asks a list of sources for a key, one after the other, and takes the first
answer.  A source holds versions of keys, stamped so that newer versions have larger
stamps.  When no source holds, of a key that an earlier source holds, anything newer than
what the earlier source holds of it (`InOrder`), the first answer is the newest version
anywhere (`newest_of_findSome`).

Sources may repeat versions of earlier ones: a source and a copy of it are in order.
-/

namespace ReadOrder

variable {ε κ τ : Type*} [LinearOrder τ] (key : ε → κ) (stamp : ε → τ)

/-- Whatever the later source holds of a key of the earlier one, the earlier one holds
something at least as new. -/
def NotOlder (earlier later : List ε) : Prop :=
  ∀ y ∈ later, ∀ x ∈ earlier, key x = key y → ∃ x' ∈ earlier, key x' = key y ∧ stamp y ≤ stamp x'

/-- Every source is not older than the sources after it. -/
def InOrder (sources : List (List ε)) : Prop := sources.Pairwise (NotOlder key stamp)

/-- The newest version of a key in a source. -/
def Newest (source : List ε) (k : κ) (x : ε) : Prop :=
  x ∈ source ∧ key x = k ∧ ∀ y ∈ source, key y = k → stamp y ≤ stamp x

variable {key stamp}

theorem notOlder_of_lt {earlier later : List ε}
    (h : ∀ x ∈ earlier, ∀ y ∈ later, key x = key y → stamp y ≤ stamp x) :
    NotOlder key stamp earlier later :=
  fun y hy x hx heq => ⟨x, hx, heq, h x hx y hy heq⟩

theorem notOlder_refl (source : List ε) : NotOlder key stamp source source :=
  fun y hy _ _ _ => ⟨y, hy, rfl, le_rfl⟩

section First

variable {k : κ} {answer : List ε → Option ε} {sources : List (List ε)} {x : ε}

/-- **The first answer is the newest version.** -/
theorem newest_of_findSome (order : InOrder key stamp sources)
    (sound : ∀ source ∈ sources, ∀ x, answer source = some x → Newest key stamp source k x)
    (complete : ∀ source ∈ sources, answer source = none → ∀ y ∈ source, key y ≠ k)
    (h : sources.findSome? answer = some x) : Newest key stamp sources.flatten k x := by
  induction sources with
  | nil => simp at h
  | cons source sources ih =>
      obtain ⟨hfirst, hrest⟩ := List.pairwise_cons.mp order
      cases hanswer : answer source with
      | none =>
          have habsent := complete source List.mem_cons_self hanswer
          obtain ⟨hmem, hkey, hmax⟩ := ih hrest
            (fun s hs => sound s (List.mem_cons_of_mem _ hs))
            (fun s hs => complete s (List.mem_cons_of_mem _ hs)) (by simpa [hanswer] using h)
          refine ⟨List.mem_append_right _ hmem, hkey, fun y hy hyk => ?_⟩
          rcases List.mem_append.mp hy with hy | hy
          · exact absurd hyk (habsent y hy)
          · exact hmax y hy hyk
      | some x' =>
          obtain rfl : x' = x := by simpa [hanswer] using h
          obtain ⟨hmem, hkey, hmax⟩ := sound source List.mem_cons_self x' hanswer
          refine ⟨List.mem_append_left _ hmem, hkey, fun y hy hyk => ?_⟩
          rcases List.mem_append.mp hy with hy | hy
          · exact hmax y hy hyk
          · obtain ⟨later, hlater, hy⟩ := List.mem_flatten.mp hy
            obtain ⟨x'', hx'', hk'', hle⟩ :=
              hfirst later hlater y hy x' hmem (hkey.trans hyk.symm)
            exact hle.trans (hmax x'' hx'' (hk''.trans hyk))

end First

end ReadOrder
