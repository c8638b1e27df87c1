import Mathlib.Logic.Function.Basic
import Mathlib.Data.List.Nodup

/-! # Running entries that act on their own key

Each entry of a list reads and rewrites the value under one key of a map.
-/
namespace WalG.Foundation
open List Function

variable {K V E ε : Type} [DecidableEq K] (key : E → K) (step : E → V → Except ε V)

def runKeyed : List E → (K → V) → Except ε (K → V)
  | [], m => .ok m
  | e :: es, m =>
    match step e (m (key e)) with
    | .error err => .error err
    | .ok v => runKeyed es (update m (key e) v)

theorem runKeyed_append (es es' : List E) (m : K → V) :
    runKeyed key step (es ++ es') m =
      (runKeyed key step es m).bind (runKeyed key step es') := by
  induction es generalizing m with
  | nil => rfl
  | cons e es ih =>
    rw [cons_append, runKeyed, runKeyed]
    cases step e (m (key e)) with
    | error err => rfl
    | ok v => exact ih _

variable {key step} {es : List E} {m m' : K → V}

theorem runKeyed_eq_ok_iff (hnd : (es.map key).Nodup) :
    runKeyed key step es m = .ok m' ↔
      (∀ e ∈ es, step e (m (key e)) = .ok (m' (key e))) ∧ ∀ k ∉ es.map key, m' k = m k := by
  induction es generalizing m with
  | nil =>
    simp only [runKeyed, Except.ok.injEq, not_mem_nil, false_implies, implies_true, true_and,
      map_nil, not_false_eq_true, true_implies]
    exact ⟨fun h k => by rw [h], fun h => (funext h).symm⟩
  | cons e es ih =>
    rw [map_cons, nodup_cons] at hnd
    have hne : ∀ e' ∈ es, key e' ≠ key e := fun e' he' h =>
      hnd.1 (mem_map.mpr ⟨e', he', h⟩)
    rw [runKeyed]
    cases hstep : step e (m (key e)) with
    | error err =>
      simp only [reduceCtorEq, false_iff, not_and]
      intro h
      rw [h e mem_cons_self] at hstep
      cases hstep
    | ok v =>
      simp only [ih hnd.2, mem_cons, map_cons, not_or, forall_eq_or_imp, hstep, Except.ok.injEq]
      constructor
      · rintro ⟨hes, hrest⟩
        have hv : m' (key e) = v := by rw [hrest _ hnd.1, update_self]
        refine ⟨⟨hv.symm, fun e' he' => ?_⟩, fun k hk => ?_⟩
        · rw [← hes e' he', update_of_ne (hne e' he')]
        · rw [hrest k hk.2, update_of_ne hk.1]
      · rintro ⟨⟨rfl, hes⟩, hrest⟩
        refine ⟨fun e' he' => ?_, fun k hk => ?_⟩
        · rw [update_of_ne (hne e' he'), hes e' he']
        · by_cases hke : k = key e
          · rw [hke, update_self]
          · rw [update_of_ne hke, hrest k ⟨hke, hk⟩]

theorem runKeyed_exists_ok (hnd : (es.map key).Nodup)
    (h : ∀ e ∈ es, ∃ v, step e (m (key e)) = .ok v) : ∃ m', runKeyed key step es m = .ok m' := by
  induction es generalizing m with
  | nil => exact ⟨m, rfl⟩
  | cons e es ih =>
    rw [map_cons, nodup_cons] at hnd
    obtain ⟨v, hv⟩ := h e mem_cons_self
    rw [runKeyed, hv]
    refine ih hnd.2 fun e' he' => ?_
    rw [update_of_ne fun heq => hnd.1 (mem_map.mpr ⟨e', he', heq⟩)]
    exact h e' (mem_cons_of_mem _ he')

end WalG.Foundation
