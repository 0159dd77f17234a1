import Lsmkv.Lib.Interleaving

/-!
# Simulation of interleavings

A run is followed by a run of another system when every step is matched by some steps of the
other one, or by none, so that a relation of the two configurations is kept
(`Reachable.simulate`).  What holds in all runs of the other system then holds, through the
relation, in all runs of the first one.
-/

namespace Interleaving

variable {ι σ π σ' π' : Type*} [DecidableEq ι] {next : ι → σ → π → σ → π → Prop}
  {next' : ι → σ' → π' → σ' → π' → Prop} {start : Config ι σ π} {start' : Config ι σ' π'}

/-- **Simulation**, step by step. -/
theorem Reachable.simulate (relation : Config ι σ π → Config ι σ' π' → Prop)
    (relation_start : relation start start')
    (step : ∀ c a i s p, Reachable next' (fun _ _ _ => True) start' a → relation c a →
      next i c.shared (c.pc i) s p →
      ∃ a', Reachable next' (fun _ _ _ => True) a a' ∧ relation (c.move i s p) a')
    {c : Config ι σ π} (reached : Reachable next (fun _ _ _ => True) start c) :
    ∃ a, Reachable next' (fun _ _ _ => True) start' a ∧ relation c a := by
  induction reached with
  | start => exact ⟨start', .start, relation_start⟩
  | step _ _ taken ih =>
      obtain ⟨a, hreached, hrelation⟩ := ih
      obtain ⟨s, p, hmoved, rfl⟩ := taken
      obtain ⟨a', hrun, hrelation'⟩ := step _ a _ s p hreached hrelation hmoved
      exact ⟨a', hreached.trans hrun, hrelation'⟩

end Interleaving
