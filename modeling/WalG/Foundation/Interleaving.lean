import Mathlib.Logic.Relation
import Mathlib.Tactic

/-! # Interleavings of goroutines

The goroutines of a call are one transition system: a step is an atomic step of any of them.
-/
namespace WalG.Foundation
open Relation

variable {S : Type} {step : S → S → Prop}

structure Completes (step : S → S → Prop) (start : S) (returned correct : S → Prop) : Prop where
  noDeadlock : ∀ s, ReflTransGen step start s → ¬ returned s → ∃ s', step s s'
  ends : ∀ run : ℕ → S, run 0 = start → ∃ n, ¬ step (run n) (run (n + 1))
  correct : ∀ s, ReflTransGen step start s → returned s → correct s

/-- What every step keeps holds in every interleaving. -/
theorem invariant_of_steps {inv : S → Prop} (hstep : ∀ s s', inv s → step s s' → inv s') {s s' : S} (h : inv s)
    (hreach : ReflTransGen step s s') : inv s' := by
  induction hreach with
  | refl => exact h
  | tail _ hlast ih => exact hstep _ _ ih hlast

/-- Every run ends if each step lowers a number. -/
theorem exists_no_step_of_measure (measure : S → ℕ) (h : ∀ s s', step s s' → measure s' < measure s) (run : ℕ → S) :
    ∃ n, ¬ step (run n) (run (n + 1)) := by
  by_contra hnone
  have hall : ∀ n, step (run n) (run (n + 1)) := fun n => not_not.mp fun h => hnone ⟨n, h⟩
  have hle : ∀ n, measure (run n) + n ≤ measure (run 0) := by
    intro n
    induction n with
    | zero => exact le_rfl
    | succ n ih =>
      have hlt := h _ _ (hall n)
      omega
  have hle := hle (measure (run 0) + 1)
  omega

/-- Then every state leads to one without a step. -/
theorem exists_stuck_of_measure (measure : S → ℕ) (h : ∀ s s', step s s' → measure s' < measure s) (s : S) :
    ∃ last, ReflTransGen step s last ∧ ∀ s', ¬ step last s' := by
  induction hm : measure s using Nat.strong_induction_on generalizing s with
  | _ n ih =>
    by_cases hnone : ∃ s', step s s'
    · obtain ⟨s', hs'⟩ := hnone
      obtain ⟨last, hreach, hstuck⟩ := ih _ (hm ▸ h s s' hs') s' rfl
      exact ⟨last, .head hs' hreach, hstuck⟩
    · exact ⟨s, .refl, fun s' hs' => hnone ⟨s', hs'⟩⟩

/-- A state that is reached, has not returned and allows no step is a deadlock. -/
theorem not_completes_of_stuck {start s : S} {returned correct : S → Prop} (hreach : ReflTransGen step start s)
    (hreturned : ¬ returned s) (hstuck : ∀ s', ¬ step s s') : ¬ Completes step start returned correct := by
  intro h
  obtain ⟨s', hs'⟩ := h.noDeadlock s hreach hreturned
  exact hstuck s' hs'

end WalG.Foundation
