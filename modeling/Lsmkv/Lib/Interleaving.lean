import Mathlib.Data.Fintype.Card
import Mathlib.Logic.Function.Basic

/-!
# Interleavings of threads

Threads share a state and take turns: one thread at a time makes one indivisible step, which
reads and changes the shared state and the place of that thread, and nothing else.  `next`
says what a thread may do; a run is any sequence of such steps, here with a condition that
the steps of the run are to meet.

An invariant of a run consists of a part about the whole configuration and of an assertion
for every thread, which depends on the shared state and on the place of the thread alone.
A step then has to keep the whole, to establish the assertion of the thread that moves, and
to leave the assertions of the others true (`Reachable.outline`, the rule of Owicki and
Gries).
-/

namespace Interleaving

/-- The shared state and the place of every thread. -/
structure Config (ι σ π : Type*) where
  shared : σ
  pc : ι → π

section Runs

variable {ι σ π : Type*} [DecidableEq ι]

/-- The configuration after a thread has moved. -/
def Config.move (c : Config ι σ π) (i : ι) (s : σ) (p : π) : Config ι σ π :=
  ⟨s, Function.update c.pc i p⟩

@[simp]
theorem Config.move_shared (c : Config ι σ π) (i : ι) (s : σ) (p : π) :
    (c.move i s p).shared = s := rfl

@[simp]
theorem Config.move_pc_self (c : Config ι σ π) (i : ι) (s : σ) (p : π) :
    (c.move i s p).pc i = p := Function.update_self _ _ _

theorem Config.move_pc_of_ne (c : Config ι σ π) {i j : ι} (ne : j ≠ i) (s : σ) (p : π) :
    (c.move i s p).pc j = c.pc j := Function.update_of_ne ne _ _

/-- Behind a step, a thread is the one that moved, at its new place, or another one, at its old
place. -/
theorem Config.pc_of_move {c : Config ι σ π} {Q : π → Prop} {i j : ι} {s : σ} {p : π}
    (h : Q ((c.move i s p).pc j)) : (j = i ∧ Q p) ∨ (j ≠ i ∧ Q (c.pc j)) := by
  by_cases heq : j = i
  · subst heq
    rw [Config.move_pc_self] at h
    exact .inl ⟨rfl, h⟩
  · rw [Config.move_pc_of_ne c heq] at h
    exact .inr ⟨heq, h⟩

/-- What is the same of the thread that moves is the same of every thread. -/
theorem Config.forall_move_pc {β : Type*} (c : Config ι σ π) {f : π → β} {i : ι} {s : σ} {p : π}
    (same : f p = f (c.pc i)) (j : ι) : f ((c.move i s p).pc j) = f (c.pc j) := by
  by_cases heq : j = i
  · rw [heq, Config.move_pc_self, same]
  · rw [Config.move_pc_of_ne c heq]

theorem Config.move_move (c : Config ι σ π) (i : ι) (s s' : σ) (p p' : π) :
    (c.move i s p).move i s' p' = c.move i s' p' := by
  simp [Config.move]

variable (next : ι → σ → π → σ → π → Prop) (meets : Config ι σ π → ι → Config ι σ π → Prop)

/-- One step of one thread. -/
def Step (c : Config ι σ π) (i : ι) (c' : Config ι σ π) : Prop :=
  ∃ s p, next i c.shared (c.pc i) s p ∧ c' = c.move i s p

/-- The configurations that a run from `start` can reach with steps that meet the
condition. -/
inductive Reachable (start : Config ι σ π) : Config ι σ π → Prop
  | start : Reachable start start
  | step {c c' : Config ι σ π} {i : ι} (reached : Reachable start c) (meets : meets c i c')
      (taken : Step next c i c') : Reachable start c'

variable {next meets} {start c : Config ι σ π}

/-- A run goes on with a step of a thread. -/
theorem Reachable.move (reached : Reachable next meets start c) (i : ι) {s : σ} {p : π}
    (moved : next i c.shared (c.pc i) s p) (ok : meets c i (c.move i s p)) :
    Reachable next meets start (c.move i s p) :=
  .step reached ok ⟨s, p, moved, rfl⟩

/-- A run goes on with a step of a thread at a known place. -/
theorem Reachable.moveAt (reached : Reachable next meets start c) (i : ι) {s : σ} {p₀ p : π}
    (here : c.pc i = p₀) (moved : next i c.shared p₀ s p) (ok : meets c i (c.move i s p)) :
    Reachable next meets start (c.move i s p) :=
  reached.move i (here ▸ moved) ok

/-- Runs are glued. -/
theorem Reachable.trans {c' : Config ι σ π} (reached : Reachable next meets start c)
    (later : Reachable next meets c c') : Reachable next meets start c' := by
  induction later with
  | start => exact reached
  | step _ meets taken ih => exact .step ih meets taken

/-- A run that meets a condition meets a weaker one. -/
theorem Reachable.mono {meets' : Config ι σ π → ι → Config ι σ π → Prop}
    (weaker : ∀ c i c', meets c i c' → meets' c i c') (reached : Reachable next meets start c) :
    Reachable next meets' start c := by
  induction reached with
  | start => exact .start
  | step _ meets taken ih => exact .step ih (weaker _ _ _ meets) taken

section Views

variable {σ' π' : Type*} {next' : ι → σ' → π' → σ' → π' → Prop}
  {meets' : Config ι σ' π' → ι → Config ι σ' π' → Prop} {f : σ → σ'} {g : π → π'}

/-- A configuration through a view of the shared state and a view of the places. -/
def Config.map (f : σ → σ') (g : π → π') (c : Config ι σ π) : Config ι σ' π' :=
  ⟨f c.shared, g ∘ c.pc⟩

theorem Config.map_move (c : Config ι σ π) (i : ι) (s : σ) (p : π) :
    (c.move i s p).map f g = (c.map f g).move i (f s) (g p) := by
  simp only [Config.map, Config.move, Function.comp_update]

theorem Config.move_self (c : Config ι σ π) (i : ι) : c.move i c.shared (c.pc i) = c := by
  simp only [Config.move, Function.update_eq_self]

/-- **Runs seen through a view** are runs, when a step is seen as a step or not at all. -/
theorem Reachable.map
    (steps : ∀ i s p s' p', next i s p s' p' →
      next' i (f s) (g p) (f s') (g p') ∨ (f s' = f s ∧ g p' = g p))
    (ok : ∀ c i c', meets c i c' → meets' (c.map f g) i (c'.map f g))
    (reached : Reachable next meets start c) :
    Reachable next' meets' (start.map f g) (c.map f g) := by
  induction reached with
  | start => exact .start
  | @step c c' i _ met taken ih =>
      obtain ⟨s, p, hmoved, rfl⟩ := taken
      have hmet := ok _ _ _ met
      rw [Config.map_move] at hmet ⊢
      rcases steps _ _ _ _ _ hmoved with hstep | ⟨hshared, hpc⟩
      · exact ih.move i hstep hmet
      · rw [hshared, hpc]
        exact (Config.move_self (c.map f g) i).symm ▸ ih

end Views

/-- **Invariants with assertions.**  What a step keeps of the whole, and the assertions that
the thread which moves establishes and leaves to the others, hold in all of a run. -/
theorem Reachable.outline {whole : Config ι σ π → Prop} {assertion : ι → σ → π → Prop}
    (whole_start : whole start) (assertion_start : ∀ i, assertion i start.shared (start.pc i))
    (own : ∀ c i s p, whole c → (∀ j, assertion j c.shared (c.pc j)) →
      next i c.shared (c.pc i) s p → meets c i (c.move i s p) →
      whole (c.move i s p) ∧ assertion i s p)
    (others : ∀ c i s p j, whole c → (∀ j, assertion j c.shared (c.pc j)) →
      next i c.shared (c.pc i) s p → meets c i (c.move i s p) → j ≠ i →
      assertion j s (c.pc j))
    (reached : Reachable next meets start c) :
    whole c ∧ ∀ i, assertion i c.shared (c.pc i) := by
  induction reached with
  | start => exact ⟨whole_start, assertion_start⟩
  | @step c c' i _ ok taken ih =>
      obtain ⟨s, p, hmoved, rfl⟩ := taken
      obtain ⟨hwhole, hown⟩ := own c i s p ih.1 ih.2 hmoved ok
      refine ⟨hwhole, fun j => ?_⟩
      by_cases heq : j = i
      · subst heq
        rwa [Config.move_pc_self]
      · rw [Config.move_pc_of_ne c heq]
        exact others c i s p j ih.1 ih.2 hmoved ok heq

end Runs

/-! ## Counting threads -/

section Counting

variable {ι σ π : Type*} [Fintype ι] (P : π → Prop) [DecidablePred P]

/-- How many threads are at a place of a kind. -/
def Config.count (c : Config ι σ π) : ℕ := (Finset.univ.filter fun i => P (c.pc i)).card

/-- A step changes the count by the thread that moves. -/
theorem Config.count_move [DecidableEq ι] (c : Config ι σ π) (i : ι) (s : σ) (p : π) :
    (c.move i s p).count P + (if P (c.pc i) then 1 else 0) =
      c.count P + (if P p then 1 else 0) := by
  have hsplit : ∀ f : ι → π, (Finset.univ.filter fun j => P (f j)).card =
      ((Finset.univ.erase i).filter fun j => P (f j)).card + if P (f i) then 1 else 0 := by
    intro f
    rw [← Finset.insert_erase (Finset.mem_univ i), Finset.filter_insert]
    split
    · rw [Finset.card_insert_of_notMem (by simp), Finset.erase_insert (by simp)]
    · rw [Finset.erase_insert (by simp), Nat.add_zero]
  have hrest : ((Finset.univ.erase i).filter fun j => P ((c.move i s p).pc j)) =
      (Finset.univ.erase i).filter fun j => P (c.pc j) := by
    refine Finset.filter_congr fun j hj => ?_
    rw [Config.move_pc_of_ne c (Finset.ne_of_mem_erase hj)]
  unfold Config.count
  rw [hsplit (c.move i s p).pc, hsplit c.pc, hrest, Config.move_pc_self]
  omega

variable {P} in
theorem Config.count_pos {c : Config ι σ π} {i : ι} (h : P (c.pc i)) : 0 < c.count P :=
  Finset.card_pos.mpr ⟨i, by simpa using h⟩

variable {P} in
theorem Config.count_eq_zero {c : Config ι σ π} : c.count P = 0 ↔ ∀ i, ¬ P (c.pc i) := by
  simp [Config.count, Finset.filter_eq_empty_iff]

end Counting

end Interleaving
