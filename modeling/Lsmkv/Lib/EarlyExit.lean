import Mathlib.Logic.Basic

/-!
# Programs that stop early

A program over a state that either goes on with a value or stops with an exit (`EStateM`).
`Leaves x Q E s` is the weakest precondition: from the state `s` the program `x` ends in a state
with `Q`, or stops in one with `E`.  The rules below compute it along a program, so that a proof
about a program follows its text; `Leaves.mono` uses what is known about a part of it.

What every part of a program keeps holds in the end, however the program ends (`Keeps`).
-/

namespace EarlyExit

variable {ε σ α β : Type}

/-- **From the state the program goes on with `Q` or stops with `E`.** -/
def Leaves (x : EStateM ε σ α) (Q : α → σ → Prop) (E : ε → σ → Prop) (s : σ) : Prop :=
  match x s with
  | .ok a s' => Q a s'
  | .error e s' => E e s'

section Rules

variable {Q : α → σ → Prop} {E : ε → σ → Prop} {s : σ}

@[simp] theorem leaves_pure (a : α) : Leaves (pure a : EStateM ε σ α) Q E s ↔ Q a s := Iff.rfl

@[simp] theorem leaves_get {Q : σ → σ → Prop} : Leaves (get : EStateM ε σ σ) Q E s ↔ Q s s := Iff.rfl

@[simp] theorem leaves_set {Q : PUnit → σ → Prop} (s' : σ) :
    Leaves (set s' : EStateM ε σ PUnit) Q E s ↔ Q ⟨⟩ s' := Iff.rfl

@[simp] theorem leaves_modify {Q : PUnit → σ → Prop} (f : σ → σ) :
    Leaves (modify f : EStateM ε σ PUnit) Q E s ↔ Q ⟨⟩ (f s) := Iff.rfl

@[simp] theorem leaves_bind (x : EStateM ε σ β) (f : β → EStateM ε σ α) :
    Leaves (x >>= f) Q E s ↔ Leaves x (fun b => Leaves (f b) Q E) E s := by
  show Leaves (EStateM.bind x f) Q E s ↔ _
  simp only [Leaves, EStateM.bind]
  cases x s <;> rfl

theorem leaves_get_bind (f : σ → EStateM ε σ α) : Leaves (get >>= f) Q E s ↔ Leaves (f s) Q E s := by
  rw [leaves_bind, leaves_get]

theorem leaves_set_bind (s' : σ) (f : PUnit → EStateM ε σ α) :
    Leaves (set s' >>= f) Q E s ↔ Leaves (f ⟨⟩) Q E s' := by
  rw [leaves_bind, leaves_set]

theorem leaves_ite {c : Prop} [Decidable c] {x y : EStateM ε σ α} :
    Leaves (if c then x else y) Q E s ↔ (c → Leaves x Q E s) ∧ (¬ c → Leaves y Q E s) := by
  by_cases hc : c
  · simp [hc]
  · simp [hc]

/-- The rule of consequence. -/
theorem Leaves.mono {x : EStateM ε σ α} {Q' : α → σ → Prop} {E' : ε → σ → Prop}
    (h : Leaves x Q E s) (goes : ∀ a s', Q a s' → Q' a s') (stops : ∀ e s', E e s' → E' e s') :
    Leaves x Q' E' s := by
  unfold Leaves at h ⊢
  cases hx : x s with
  | ok a s' =>
      rw [hx] at h
      exact goes a s' h
  | error e s' =>
      rw [hx] at h
      exact stops e s' h

/-- A loop keeps what each of its rounds keeps. -/
theorem leaves_forM {ι : Type} {P : σ → Prop} {round : ι → EStateM ε σ PUnit}
    (step : ∀ i s, P s → Leaves (round i) (fun _ => P) E s) (l : List ι) (init : P s) :
    Leaves (l.forM round) (fun _ => P) E s := by
  induction l generalizing s with
  | nil => exact init
  | cons i l ih =>
      show Leaves (round i >>= fun _ => l.forM round) _ E s
      rw [leaves_bind]
      exact (step i s init).mono (fun _ s' hs' => ih hs') fun _ _ he => he

end Rules

/-- **The program keeps a property of the state**, whether it goes on or stops. -/
def Keeps (P : σ → Prop) (x : EStateM ε σ α) : Prop :=
  ∀ s, P s → Leaves x (fun _ => P) (fun _ => P) s

namespace Keeps

variable {P : σ → Prop} {x : EStateM ε σ β} {f : β → EStateM ε σ α}

theorem pure (a : α) : Keeps P (Pure.pure a : EStateM ε σ α) := fun _ hs => hs

theorem modify {f : σ → σ} (h : ∀ s, P s → P (f s)) : Keeps P (modify f : EStateM ε σ PUnit) := h

theorem bind (first : Keeps P x) (second : ∀ b, Keeps P (f b)) : Keeps P (x >>= f) := by
  intro s hs
  rw [leaves_bind]
  exact (first s hs).mono (fun b s' hs' => second b s' hs') fun _ _ hs' => hs'

theorem ite {c : Prop} [Decidable c] {y z : EStateM ε σ α} (first : Keeps P y) (second : Keeps P z) :
    Keeps P (if c then y else z) :=
  fun s hs => leaves_ite.mpr ⟨fun _ => first s hs, fun _ => second s hs⟩

theorem forM {ι : Type} {round : ι → EStateM ε σ PUnit} (step : ∀ i, Keeps P (round i)) (l : List ι) :
    Keeps P (l.forM round) :=
  fun _ hs => leaves_forM (fun i s' hs' => step i s' hs') l hs

end Keeps

end EarlyExit
