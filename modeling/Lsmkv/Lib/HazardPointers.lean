import Mathlib.Data.Set.Insert
import Mathlib.Logic.Function.Basic

/-!
# Hazard pointers

Threads that work on shared objects publish in slots which ones they work on.  An object that
nobody is to find any more is retired, and later freed, but not as long as a slot holds it that
has held it since it was retired.  `Hazards` says this with a ghost: the slots that guard a
retired object, which are those that held it when it was retired and hold it since.

A thread writes an object to a slot and then makes sure that it is not retired
(`Protects.of_notMem`).  From then on, as long as the slot holds the object, it stays protected
(`Protects.step`), and what is protected has a guard and is not freed
(`Protects.guards_ne_empty`).
-/

namespace HazardPointers

/-- The slots, the objects that are retired and not freed, and the slots that guard them. -/
structure Hazards (κ ν : Type*) where
  slot : κ → Option ν
  waiting : Set ν
  guards : ν → Set κ

variable {κ ν : Type*}

namespace Hazards

/-- A slot is written.  It guards nothing any more but what it holds. -/
def store [DecidableEq κ] (h : Hazards κ ν) (k : κ) (v : Option ν) : Hazards κ ν :=
  { h with slot := Function.update h.slot k v
           guards := fun o => {j ∈ h.guards o | j = k → v = some o} }

/-- An object is retired: it is guarded by the slots that hold it. -/
def retire [DecidableEq ν] (h : Hazards κ ν) (o : ν) : Hazards κ ν :=
  { h with waiting := insert o h.waiting
           guards := Function.update h.guards o {k | h.slot k = some o} }

/-- An object is freed. -/
def free (h : Hazards κ ν) (o : ν) : Hazards κ ν := { h with waiting := h.waiting \ {o} }

/-- The slots that guard an object hold it. -/
def Sound (h : Hazards κ ν) : Prop := ∀ o ∈ h.waiting, ∀ k ∈ h.guards o, h.slot k = some o

/-- A slot keeps an object from being freed: it holds it, and guards it when it is retired. -/
def Protects (h : Hazards κ ν) (k : κ) (o : ν) : Prop :=
  h.slot k = some o ∧ (o ∈ h.waiting → k ∈ h.guards o)

end Hazards

/-- **What may happen.**  Objects are not retired twice, and not freed while they are guarded. -/
inductive Step [DecidableEq κ] [DecidableEq ν] : Hazards κ ν → Hazards κ ν → Prop
  | store {h : Hazards κ ν} (k : κ) (v : Option ν) : Step h (h.store k v)
  | retire {h : Hazards κ ν} {o : ν} (once : o ∉ h.waiting) : Step h (h.retire o)
  | free {h : Hazards κ ν} {o : ν} (waits : o ∈ h.waiting) (unguarded : h.guards o = ∅) :
      Step h (h.free o)

namespace Hazards

variable {h h' : Hazards κ ν} {k : κ} {o : ν}

/-- An object that is not retired is protected by a slot that holds it. -/
theorem Protects.of_notMem (holds : h.slot k = some o) (live : o ∉ h.waiting) : h.Protects k o :=
  ⟨holds, fun hwaits => absurd hwaits live⟩

/-- **A protected object is not freed.** -/
theorem Protects.guards_ne_empty (prot : h.Protects k o) (waits : o ∈ h.waiting) :
    h.guards o ≠ ∅ :=
  Set.nonempty_iff_ne_empty.mp ⟨k, prot.2 waits⟩

theorem Sound.free (sound : h.Sound) (o : ν) : (h.free o).Sound :=
  fun o' hwaits => sound o' hwaits.1

section Slots

variable [DecidableEq κ]

@[simp]
theorem store_waiting (k : κ) (v : Option ν) : (h.store k v).waiting = h.waiting := rfl

@[simp]
theorem store_slot_self (k : κ) (v : Option ν) : (h.store k v).slot k = v :=
  Function.update_self _ _ _

theorem store_slot_of_ne {j : κ} (ne : j ≠ k) (v : Option ν) : (h.store k v).slot j = h.slot j :=
  Function.update_of_ne ne _ _

theorem store_guards_subset (k : κ) (v : Option ν) (o : ν) :
    (h.store k v).guards o ⊆ h.guards o := fun _ hj => hj.1

theorem Sound.store (sound : h.Sound) (k : κ) (v : Option ν) : (h.store k v).Sound := by
  rintro o hwaits j ⟨hj, hkept⟩
  by_cases hjk : j = k
  · subst hjk
    rw [store_slot_self, hkept rfl]
  · rw [store_slot_of_ne hjk]
    exact sound o hwaits j hj

end Slots

section Retired

variable [DecidableEq ν]

theorem mem_retire_guards_self : k ∈ (h.retire o).guards o ↔ h.slot k = some o :=
  iff_of_eq (congrArg (k ∈ ·) (Function.update_self o _ h.guards))

theorem retire_guards_of_ne {o' : ν} (ne : o' ≠ o) : (h.retire o).guards o' = h.guards o' :=
  Function.update_of_ne ne _ _

theorem Sound.retire (sound : h.Sound) (o : ν) : (h.retire o).Sound := by
  intro o' hwaits k hk
  by_cases heq : o' = o
  · subst heq
    exact (mem_retire_guards_self (h := h)).mp hk
  · rw [retire_guards_of_ne heq] at hk
    exact sound o' (hwaits.resolve_left heq) k hk

end Retired

section Steps

variable [DecidableEq κ] [DecidableEq ν]

/-- What may happen keeps the guards right. -/
theorem Sound.step (sound : h.Sound) (step : Step h h') : h'.Sound := by
  cases step with
  | store k v => exact sound.store k v
  | retire once => exact sound.retire _
  | free waits unguarded => exact sound.free _

/-- **Protection stays** as long as the slot holds the object. -/
theorem Protects.step (prot : h.Protects k o) (step : Step h h') (kept : h'.slot k = some o) :
    h'.Protects k o := by
  refine ⟨kept, fun hwaits => ?_⟩
  cases step with
  | store j v =>
      refine ⟨prot.2 hwaits, ?_⟩
      rintro rfl
      rwa [store_slot_self] at kept
  | @retire o' once =>
      by_cases heq : o = o'
      · subst heq
        exact mem_retire_guards_self.mpr prot.1
      · rw [retire_guards_of_ne heq]
        exact prot.2 (hwaits.resolve_left heq)
  | free waits unguarded => exact prot.2 hwaits.1

end Steps

end Hazards

end HazardPointers
