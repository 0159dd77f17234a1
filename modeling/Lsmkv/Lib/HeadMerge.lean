import Mathlib.Algebra.BigOperators.Group.Finset.Basic
import Mathlib.Data.Multiset.AddSub
import Mathlib.Order.WithBot
import Mathlib.Tactic

/-!
# Merging sources by their heads

A multiway merge looks only at the heads of its sources and repeatedly takes one
whose key is least.  `HeadMerge key srcs out` is that process as a relation: `out`
is what comes out when it runs until every source is empty.  Nothing is assumed
about the order inside a source.

* `HeadMerge.multiset_eq` — every element of every source comes out exactly once.
* `HeadMerge.sublist` — each source keeps its own order.
* `HeadMerge.pairwise_le` — if the sources are ascending, so is the output.
* `HeadMerge.prefixMax` — for *arbitrary* sources the output is ascending in the
  **running maximum** of the keys of each source (`annotate`).  An element that is
  smaller than one before it in its own source is taken as soon as that one has
  been taken, so its place in the output is decided by the largest key up to it,
  not by its own key.
* `HeadMerge.pairwise_rank_iff` — when the sources are ascending in another order
  than the one they are merged by, exactly when the output is ascending in it.
-/

namespace Merging

variable {ι α κ : Type*} [DecidableEq ι] [LinearOrder κ]

/-- The process of taking, again and again, a head whose key is least. -/
inductive HeadMerge (key : α → κ) : (ι → List α) → List α → Prop
  | done {srcs : ι → List α} (empty : ∀ i, srcs i = []) : HeadMerge key srcs []
  | pick {srcs : ι → List α} {out : List α} (i : ι) (x : α) (rest : List α)
      (head : srcs i = x :: rest)
      (least : ∀ j, ∀ y ∈ (srcs j).head?, key x ≤ key y)
      (tail : HeadMerge key (Function.update srcs i rest) out) :
      HeadMerge key srcs (x :: out)

variable {key : α → κ} {srcs : ι → List α} {out : List α}

/-! ## What comes out -/

/-- Taking the head of one source takes one element off the sum of all sources. -/
theorem sum_update_cons (s : Finset ι) {i : ι} (hi : i ∈ s) {x : α} {rest : List α}
    (head : srcs i = x :: rest) :
    (∑ j ∈ s, (srcs j : Multiset α))
      = x ::ₘ ∑ j ∈ s, (Function.update srcs i rest j : Multiset α) := by
  have hcongr : ∑ j ∈ s.erase i, (Function.update srcs i rest j : Multiset α)
      = ∑ j ∈ s.erase i, (srcs j : Multiset α) :=
    Finset.sum_congr rfl fun j hj => by
      rw [Function.update_of_ne (Finset.ne_of_mem_erase hj)]
  rw [← Finset.add_sum_erase s _ hi,
    ← Finset.add_sum_erase s (fun j => (Function.update srcs i rest j : Multiset α)) hi,
    hcongr, head, Function.update_self, ← Multiset.cons_coe, Multiset.cons_add]

/-- **Every element of every source comes out exactly once.** -/
theorem HeadMerge.multiset_eq (h : HeadMerge key srcs out) (s : Finset ι)
    (outside : ∀ i, i ∉ s → srcs i = []) :
    (out : Multiset α) = ∑ i ∈ s, (srcs i : Multiset α) := by
  induction h with
  | done empty => simp [empty]
  | @pick srcs out i x rest head least tail ih =>
      have hi : i ∈ s := by
        by_contra hi
        simp [outside i hi] at head
      rw [← Multiset.cons_coe, ih fun j hj => ?_, sum_update_cons s hi head]
      rw [Function.update_of_ne (ne_of_mem_of_not_mem hi hj).symm, outside j hj]

theorem HeadMerge.mem_iff (h : HeadMerge key srcs out) {x : α} :
    x ∈ out ↔ ∃ i, x ∈ srcs i := by
  induction h with
  | done empty => simp [empty]
  | @pick srcs out i y rest head least tail ih =>
      rw [List.mem_cons, ih]
      constructor
      · rintro (rfl | ⟨j, hj⟩)
        · exact ⟨i, by simp [head]⟩
        · by_cases heq : j = i
          · subst heq
            rw [Function.update_self] at hj
            exact ⟨j, by simp [head, hj]⟩
          · rw [Function.update_of_ne heq] at hj
            exact ⟨j, hj⟩
      · rintro ⟨j, hj⟩
        by_cases heq : j = i
        · subst heq
          rw [head, List.mem_cons] at hj
          rcases hj with rfl | hj
          · exact .inl rfl
          · exact .inr ⟨j, by rwa [Function.update_self]⟩
        · exact .inr ⟨j, by rwa [Function.update_of_ne heq]⟩

/-- **Each source keeps its own order.** -/
theorem HeadMerge.sublist (h : HeadMerge key srcs out) (i : ι) : (srcs i).Sublist out := by
  induction h with
  | done empty => simp [empty]
  | @pick srcs out j x rest head least tail ih =>
      by_cases heq : i = j
      · subst heq
        rw [Function.update_self] at ih
        rw [head]
        exact ih.cons_cons x
      · rw [Function.update_of_ne heq] at ih
        exact ih.cons x

/-- **The output is an interleaving of the sources**: each element is taken from one source, and
what is taken from a source is the source. -/
theorem HeadMerge.exists_picks (h : HeadMerge key srcs out) :
    ∃ picks : List (ι × α), picks.map Prod.snd = out ∧
      ∀ i, (picks.filter fun p => decide (p.1 = i)).map Prod.snd = srcs i := by
  induction h with
  | done empty => exact ⟨[], rfl, fun i => (empty i).symm⟩
  | @pick srcs out j x rest head least tail ih =>
      obtain ⟨picks, hout, hsrcs⟩ := ih
      refine ⟨(j, x) :: picks, by rw [List.map_cons, hout], fun i => ?_⟩
      by_cases heq : j = i
      · subst heq
        rw [List.filter_cons_of_pos (by simp), List.map_cons, hsrcs, Function.update_self, head]
      · rw [List.filter_cons_of_neg (by simpa using heq), hsrcs,
          Function.update_of_ne (Ne.symm heq)]

/-- **Ascending sources merge to an ascending output.** -/
theorem HeadMerge.pairwise_le (h : HeadMerge key srcs out)
    (sorted : ∀ i, (srcs i).Pairwise fun a b => key a ≤ key b) :
    out.Pairwise fun a b => key a ≤ key b := by
  induction h with
  | done empty => exact List.Pairwise.nil
  | @pick srcs out i x rest head least tail ih =>
      have hsorted : ∀ j, (Function.update srcs i rest j).Pairwise
          fun a b => key a ≤ key b := by
        intro j
        by_cases heq : j = i
        · subst heq
          rw [Function.update_self]
          exact (head ▸ sorted j).of_cons
        · rw [Function.update_of_ne heq]
          exact sorted j
      refine List.Pairwise.cons (fun y hy => ?_) (ih hsorted)
      obtain ⟨j, hj⟩ := tail.mem_iff.mp hy
      -- `y` sits behind the head of its source, and that head is not below `x`
      have hsrc : ∃ z zs, srcs j = z :: zs ∧ y ∈ z :: zs := by
        by_cases heq : j = i
        · subst heq
          rw [Function.update_self] at hj
          exact ⟨x, rest, head, List.mem_cons_of_mem _ hj⟩
        · rw [Function.update_of_ne heq] at hj
          obtain ⟨z, zs, hz⟩ := List.exists_cons_of_ne_nil (List.ne_nil_of_mem hj)
          exact ⟨z, zs, hz, hz ▸ hj⟩
      obtain ⟨z, zs, hz, hmem⟩ := hsrc
      have hxz : key x ≤ key z := least j z (by simp [hz])
      rcases List.mem_cons.mp hmem with rfl | hmem
      · exact hxz
      · exact hxz.trans ((List.pairwise_cons.mp (hz ▸ sorted j)).1 y hmem)

/-- **Strictly ascending sources without a common key merge to a strictly ascending output.** -/
theorem HeadMerge.pairwise_lt (h : HeadMerge key srcs out)
    (sorted : ∀ i, (srcs i).Pairwise fun a b => key a < key b)
    (apart : ∀ i j, i ≠ j → ∀ a ∈ srcs i, ∀ b ∈ srcs j, key a ≠ key b) :
    out.Pairwise fun a b => key a < key b := by
  have hle := h.pairwise_le fun i => (sorted i).imp le_of_lt
  obtain ⟨picks, hout, hsrcs⟩ := h.exists_picks
  have hmem : ∀ p ∈ picks, p.2 ∈ srcs p.1 := fun p hp => by
    rw [← hsrcs p.1]
    exact List.mem_map_of_mem (List.mem_filter.mpr ⟨hp, by simp⟩)
  rw [← hout] at hle ⊢
  rw [List.pairwise_map] at hle ⊢
  -- Two picks of one source are in its order, and picks of two sources have two keys.
  have hne : picks.Pairwise fun p q => key p.2 ≠ key q.2 := by
    rw [List.pairwise_iff_forall_sublist]
    intro p q hsub
    by_cases heq : p.1 = q.1
    · have hpair : [p.2, q.2].Sublist (srcs p.1) := by
        rw [← hsrcs p.1]
        have hfilter := (hsub.filter fun r => decide (r.1 = p.1)).map Prod.snd
        simpa [heq] using hfilter
      exact ((List.pairwise_iff_forall_sublist.mp (sorted p.1)) hpair).ne
    · exact apart _ _ heq _ (hmem p (hsub.subset (by simp))) _ (hmem q (hsub.subset (by simp)))
  exact (hle.and hne).imp fun ⟨h, h'⟩ => lt_of_le_of_ne h h'

/-! ## The running maximum -/

/-- A source with every element labelled by the largest key up to it; `b` is the
largest key already taken from the source. -/
def annotate (key : α → κ) : WithBot κ → List α → List (WithBot κ × α)
  | _, [] => []
  | b, x :: xs => (max b (key x), x) :: annotate key (max b (key x)) xs

@[simp] theorem annotate_nil (key : α → κ) (b : WithBot κ) :
    annotate key b ([] : List α) = [] := rfl

theorem annotate_cons (key : α → κ) (b : WithBot κ) (x : α) (xs : List α) :
    annotate key b (x :: xs) = (max b (key x), x) :: annotate key (max b (key x)) xs := rfl

theorem map_snd_annotate (key : α → κ) (b : WithBot κ) (l : List α) :
    (annotate key b l).map Prod.snd = l := by
  induction l generalizing b with
  | nil => rfl
  | cons x xs ih => simp [annotate_cons, ih]

theorem le_of_mem_annotate {b : WithBot κ} {l : List α} {p : WithBot κ × α}
    (h : p ∈ annotate key b l) : b ≤ p.1 := by
  induction l generalizing b with
  | nil => simp at h
  | cons x xs ih =>
      rcases List.mem_cons.mp h with rfl | h
      · exact le_max_left _ _
      · exact (le_max_left _ _).trans (ih h)

theorem annotate_pairwise (key : α → κ) (b : WithBot κ) (l : List α) :
    (annotate key b l).Pairwise fun p q => p.1 ≤ q.1 := by
  induction l generalizing b with
  | nil => exact List.Pairwise.nil
  | cons x xs ih => exact List.Pairwise.cons (fun q hq => le_of_mem_annotate hq) (ih _)

/-- The merge of the labelled sources, by label.  `marks i` is the largest key
already taken from source `i`; the invariant `above` says that no mark exceeds
the label of another source's head. -/
theorem HeadMerge.annotated (h : HeadMerge key srcs out) (marks : ι → WithBot κ)
    (above : ∀ i j, i ≠ j → ∀ y ∈ (srcs j).head?, marks i ≤ max (marks j) (key y)) :
    ∃ aout : List (WithBot κ × α), aout.map Prod.snd = out ∧
      HeadMerge Prod.fst (fun i => annotate key (marks i) (srcs i)) aout := by
  induction h generalizing marks with
  | done empty => exact ⟨[], rfl, .done fun i => by simp [empty]⟩
  | @pick srcs out i x rest head least tail ih =>
      have hx : ∀ j, j ≠ i → marks j ≤ max (marks i) (key x) := fun j hj =>
        above j i hj x (by simp [head])
      have habove : ∀ a b, a ≠ b → ∀ y ∈ (Function.update srcs i rest b).head?,
          Function.update marks i (max (marks i) (key x)) a
            ≤ max (Function.update marks i (max (marks i) (key x)) b) (key y) := by
        intro a b hab y hy
        by_cases ha : a = i
        · subst ha
          rw [Function.update_self, Function.update_of_ne hab.symm]
          rw [Function.update_of_ne hab.symm] at hy
          have hxy : key x ≤ key y := least b y hy
          exact max_le (above a b hab y hy)
            ((WithBot.coe_le_coe.mpr hxy).trans (le_max_right _ _))
        · rw [Function.update_of_ne ha]
          by_cases hb : b = i
          · subst hb
            rw [Function.update_self]
            exact (hx a ha).trans (le_max_left _ _)
          · rw [Function.update_of_ne hb] at hy ⊢
            exact above a b hab y hy
      obtain ⟨aout, hmap, hmerge⟩ := ih _ habove
      refine ⟨(max (marks i) (key x), x) :: aout, by simp [hmap], ?_⟩
      refine .pick i _ (annotate key (max (marks i) (key x)) rest) ?_ ?_ ?_
      · simp [head, annotate_cons]
      · intro j p hp
        cases hj : srcs j with
        | nil => simp [hj] at hp
        | cons y ys =>
            have hy : key x ≤ key y := least j y (by simp [hj])
            simp only [hj, annotate_cons, List.head?_cons, Option.mem_some_iff] at hp
            subst hp
            by_cases heq : i = j
            · subst heq
              rw [head] at hj
              cases hj
              exact le_rfl
            · exact max_le (above i j heq y (by simp [hj]))
                ((WithBot.coe_le_coe.mpr hy).trans (le_max_right _ _))
      · convert hmerge using 1
        funext j
        by_cases heq : j = i
        · subst heq
          simp
        · simp [Function.update_of_ne heq]

/-- **The output is ascending in the running maxima of the sources.** -/
theorem HeadMerge.prefixMax (h : HeadMerge key srcs out) :
    ∃ aout : List (WithBot κ × α), aout.map Prod.snd = out ∧
      (∀ p, p ∈ aout ↔ ∃ i, p ∈ annotate key ⊥ (srcs i)) ∧
      aout.Pairwise fun p q => p.1 ≤ q.1 := by
  obtain ⟨aout, hmap, hmerge⟩ := h.annotated (fun _ => ⊥) fun _ _ _ _ _ => bot_le
  exact ⟨aout, hmap, fun p => hmerge.mem_iff,
    hmerge.pairwise_le fun i => annotate_pairwise key ⊥ (srcs i)⟩

/-! ## Merging by one order, reading by another -/

section Rank

variable {ρ : Type*} [LinearOrder ρ] {rank : α → ρ}

/-- In a source that ascends in `rank`, a label is the largest key up to the element. -/
theorem label_of_mem_annotate {b : WithBot κ} {l : List α} {p : WithBot κ × α}
    (asc : l.Pairwise fun x y => rank x < rank y) (h : p ∈ annotate key b l) :
    (∀ y ∈ l, rank y ≤ rank p.2 → (key y : WithBot κ) ≤ p.1) ∧
      (p.1 = b ∨ ∃ y ∈ l, rank y ≤ rank p.2 ∧ p.1 = key y) := by
  induction l generalizing b with
  | nil => simp at h
  | cons x xs ih =>
      obtain ⟨hx, hxs⟩ := List.pairwise_cons.mp asc
      rcases List.mem_cons.mp h with rfl | hmem
      · refine ⟨fun y hy hle => ?_, ?_⟩
        · rcases List.mem_cons.mp hy with rfl | hy
          · exact le_max_right _ _
          · exact absurd (hx y hy) (not_lt.mpr hle)
        · rcases le_total b (key x) with hle | hle
          · exact .inr ⟨x, List.mem_cons_self, le_rfl, max_eq_right hle⟩
          · exact .inl (max_eq_left hle)
      · obtain ⟨hall, hlabel⟩ := ih hxs hmem
        have hp : p.2 ∈ xs := by
          have := List.mem_map_of_mem (f := Prod.snd) hmem
          rwa [map_snd_annotate] at this
        refine ⟨fun y hy hle => ?_, ?_⟩
        · rcases List.mem_cons.mp hy with rfl | hy
          · exact (le_max_right _ _).trans (le_of_mem_annotate hmem)
          · exact hall y hy hle
        · rcases hlabel with hb | ⟨y, hy, hle, heq⟩
          · rcases le_total b (key x) with hbx | hbx
            · exact .inr ⟨x, List.mem_cons_self, (hx _ hp).le, by rw [hb, max_eq_right hbx]⟩
            · exact .inl (by rw [hb, max_eq_left hbx])
          · exact .inr ⟨y, List.mem_cons_of_mem _ hy, hle, heq⟩

/-- Two members of a list are related one way or the other, unless they are equal. -/
theorem rel_or_rel_of_mem {R : α → α → Prop} {l : List α} (h : l.Pairwise R) {x y : α}
    (hx : x ∈ l) (hy : y ∈ l) (ne : x ≠ y) : R x y ∨ R y x := by
  obtain ⟨i, hi, rfl⟩ := List.mem_iff_getElem.mp hx
  obtain ⟨j, hj, rfl⟩ := List.mem_iff_getElem.mp hy
  have hp := List.pairwise_iff_getElem.mp h
  rcases lt_trichotomy i j with hij | rfl | hij
  · exact .inl (hp i j hi hj hij)
  · exact absurd rfl ne
  · exact .inr (hp j i hj hi hij)

/-- In a list without repetitions, positions ascend. -/
theorem pairwise_idxOf [DecidableEq α] {l : List α} (nodup : l.Nodup) :
    l.Pairwise fun x y => l.idxOf x < l.idxOf y := by
  rw [List.pairwise_iff_getElem]
  intro i j hi hj hij
  rwa [nodup.idxOf_getElem i hi, nodup.idxOf_getElem j hj]

/-- Source `tb` overtakes source `ta`: up to `b` it holds a key larger than every key
of `ta` up to `a`. -/
def Overtakes (key : α → κ) (rank : α → ρ) (ta tb : List α) (a b : α) : Prop :=
  ∃ b' ∈ tb, rank b' ≤ rank b ∧ ∀ a' ∈ ta, rank a' ≤ rank a → key a' < key b'

/-- **Exactly when a merge by `key` is also ascending in `rank`.**  The sources ascend
in `rank`, and no two of them share a key.  Elements outside `P` are ignored in the
output, not in the merge. -/
theorem HeadMerge.pairwise_rank_iff [DecidableEq α] (h : HeadMerge key srcs out)
    (nodup : out.Nodup) (asc : ∀ i, (srcs i).Pairwise fun x y => rank x < rank y)
    (keys : ∀ i j, i ≠ j → ∀ x ∈ srcs i, ∀ y ∈ srcs j, key x ≠ key y)
    (ranks : ∀ i j, i ≠ j → ∀ x ∈ srcs i, ∀ y ∈ srcs j, rank x ≠ rank y) (P : α → Prop) :
    (out.Pairwise fun x y => P x → P y → rank x < rank y) ↔
      ∀ i j, i ≠ j → ∀ a ∈ srcs i, ∀ b ∈ srcs j, P a → P b → rank a < rank b →
        Overtakes key rank (srcs i) (srcs j) a b := by
  obtain ⟨aout, hmap, hmem, hlabels⟩ := h.prefixMax
  -- a label is the greatest key of its source up to the element
  have hlabel : ∀ {i p}, p ∈ annotate key ⊥ (srcs i) →
      p.2 ∈ srcs i ∧ (∀ y ∈ srcs i, rank y ≤ rank p.2 → (key y : WithBot κ) ≤ p.1) ∧
      ∃ y ∈ srcs i, rank y ≤ rank p.2 ∧ p.1 = key y := by
    intro i p hp
    have hsnd : p.2 ∈ srcs i := by
      have := List.mem_map_of_mem (f := Prod.snd) hp
      rwa [map_snd_annotate] at this
    obtain ⟨hall, hsome⟩ := label_of_mem_annotate (asc i) hp
    refine ⟨hsnd, hall, ?_⟩
    rcases hsome with hbot | hsome
    · exact absurd (hall p.2 hsnd le_rfl) (by simp [hbot])
    · exact hsome
  have hannot : ∀ {i a}, a ∈ srcs i → ∃ m, (m, a) ∈ annotate key ⊥ (srcs i) := by
    intro i a ha
    rw [← map_snd_annotate key ⊥ (srcs i)] at ha
    obtain ⟨p, hp, rfl⟩ := List.mem_map.mp ha
    exact ⟨p.1, hp⟩
  constructor
  · -- Two elements out of order in their labels would be out of order in the output.
    intro hsorted i j hij a ha b hb hPa hPb hab
    obtain ⟨m, hm⟩ := hannot ha
    obtain ⟨n, hn⟩ := hannot hb
    obtain ⟨-, hallA, a', ha', -, hma⟩ := hlabel hm
    obtain ⟨-, -, b', hb', hbb, hnb⟩ := hlabel hn
    have hboth : aout.Pairwise fun p q => p.1 ≤ q.1 ∧ (P p.2 → P q.2 → rank p.2 < rank q.2) := by
      refine List.Pairwise.and hlabels ?_
      rw [← hmap, List.pairwise_map] at hsorted
      exact hsorted
    have hne : (m, a) ≠ (n, b) := by
      intro heq
      rw [(Prod.mk.inj heq).2] at hab
      exact lt_irrefl _ hab
    have hle : m ≤ n := by
      rcases rel_or_rel_of_mem hboth ((hmem _).mpr ⟨i, hm⟩) ((hmem _).mpr ⟨j, hn⟩) hne with
        hlt | hgt
      · exact hlt.1
      · exact absurd (hgt.2 hPb hPa) (not_lt.mpr hab.le)
    have hlt : m < n := by
      refine lt_of_le_of_ne hle ?_
      simp only at hma hnb
      rw [hma, hnb]
      exact fun heq => keys i j hij a' ha' b' hb' (WithBot.coe_inj.mp heq)
    refine ⟨b', hb', hbb, fun a'' ha'' hle'' => ?_⟩
    have := (hallA a'' ha'' hle'').trans_lt hlt
    simp only at hnb
    rw [hnb] at this
    exact WithBot.coe_lt_coe.mp this
  -- An inversion in the output would be of two sources, and one overtakes the other.
  · intro hover
    rw [← hmap, List.pairwise_map]
    rw [← hmap] at nodup
    have hpos : aout.Pairwise fun p q => out.idxOf p.2 < out.idxOf q.2 := by
      have := pairwise_idxOf nodup
      rw [hmap] at this
      rwa [← hmap, List.pairwise_map, hmap] at this
    refine (List.Pairwise.and hlabels hpos).imp_of_mem ?_
    rintro p q hp hq ⟨hle, hidx⟩ hPp hPq
    obtain ⟨i, hpi⟩ := (hmem p).mp hp
    obtain ⟨j, hqj⟩ := (hmem q).mp hq
    obtain ⟨hpS, hallP, -⟩ := hlabel hpi
    obtain ⟨hqS, -, y, hy, hyq, hlabelQ⟩ := hlabel hqj
    by_contra hnot
    by_cases hij : i = j
    · -- Elements of one source come out in the order of that source.
      subst hij
      have hsub : (srcs i).Pairwise fun x y => out.idxOf x < out.idxOf y := by
        have := pairwise_idxOf (l := out) (by rwa [hmap] at nodup)
        exact this.sublist (h.sublist i)
      have hne : q.2 ≠ p.2 := by
        intro heq
        rw [heq] at hidx
        exact lt_irrefl _ hidx
      rcases rel_or_rel_of_mem (List.Pairwise.and (asc i) hsub) hqS hpS hne with hlt | hgt
      · exact absurd hidx (not_lt.mpr hlt.2.le)
      · exact hnot hgt.1
    · have hlt : rank q.2 < rank p.2 :=
        lt_of_le_of_ne (not_lt.mp hnot) (ranks j i (Ne.symm hij) q.2 hqS p.2 hpS)
      obtain ⟨a', ha', hle', hall⟩ := hover j i (Ne.symm hij) q.2 hqS p.2 hpS hPq hPp hlt
      have hstep : (key a' : WithBot κ) ≤ q.1 := (hallP a' ha' hle').trans hle
      rw [hlabelQ] at hstep
      exact absurd (hall y hy hyq) (not_lt.mpr (WithBot.coe_le_coe.mp hstep))

end Rank

end Merging
