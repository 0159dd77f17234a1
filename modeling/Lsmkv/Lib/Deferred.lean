import Mathlib.Logic.Relation

/-!
# Steps that are finished later

A step of a system may end in a store that it makes only later, while others go on.  Such a step is
split: it `begins`, with the value that is still to be stored, the others take their steps
`meanwhile`, and `settle` makes the store.

If the store can be made at once, and what others do meanwhile does not depend on whether it has been
made (`Commutes`), then the split steps are the whole ones: every state that is reached, with the store
made, is one that is reached by whole steps (`Commutes.settled_reachable`).
-/

namespace Deferring

open Relation

/-- A system one of whose steps leaves a value of `ν` to be stored. -/
structure Deferred (σ ν : Type) where
  /-- The steps when nothing is left to be stored. -/
  step : σ → σ → Prop
  begins : σ → ν → σ → Prop
  /-- The steps that are taken while something is. -/
  meanwhile : σ → σ → Prop
  settle : ν → σ → σ

namespace Deferred

variable {σ ν : Type} (D : Deferred σ ν)

/-- **One step**; the second component is what is left to be stored. -/
inductive Next : σ × Option ν → σ × Option ν → Prop
  | step {s s' : σ} (taken : D.step s s') : Next (s, none) (s', none)
  | begins {s s' : σ} {v : ν} (begun : D.begins s v s') : Next (s, none) (s', some v)
  | meanwhile {s s' : σ} {v : ν} (taken : D.meanwhile s s') : Next (s, some v) (s', some v)
  | settle {s : σ} {v : ν} : Next (s, some v) (D.settle v s, none)

/-- The state once what is left is stored. -/
def settled : σ × Option ν → σ
  | (s, none) => s
  | (s, some v) => D.settle v s

/-- A store that can be made at once, and that what others do does not depend on. -/
structure Commutes : Prop where
  begins : ∀ {s s' : σ} {v : ν}, D.begins s v s' → D.step s (D.settle v s')
  meanwhile : ∀ {s s' : σ} (v : ν), D.meanwhile s s' → D.step (D.settle v s) (D.settle v s')

variable {D} {c c' : σ × Option ν}

/-- A split step is a whole one or none. -/
theorem Commutes.settled_step (h : D.Commutes) (taken : D.Next c c') :
    D.settled c' = D.settled c ∨ D.step (D.settled c) (D.settled c') := by
  cases taken with
  | step taken => exact .inr taken
  | begins begun => exact .inr (h.begins begun)
  | meanwhile taken => exact .inr (h.meanwhile _ taken)
  | settle => exact .inl rfl

/-- **The states with the store made are those of the whole steps.** -/
theorem Commutes.settled_reachable (h : D.Commutes) (run : ReflTransGen D.Next c c') :
    ReflTransGen D.step (D.settled c) (D.settled c') := by
  induction run with
  | refl => exact .refl
  | tail _ taken ih =>
      rcases h.settled_step taken with heq | hstep
      · rw [heq]
        exact ih
      · exact ih.tail hstep

end Deferred

end Deferring
