import Mathlib.Logic.Relation
import Mathlib.Tactic

/-! # Ancestor-closed sets

A set of marked nodes is closed if the parents of its nodes are in it.
-/
namespace WalG.Foundation

variable {α : Type} (parent : α → α → Prop)

def AncestorClosed (marked : α → Prop) : Prop := ∀ p x, parent p x → marked x → marked p

/-- Every node comes after those of its parents that are not marked before. -/
def AncestorsFirst (marked : α → Prop) : List α → Prop
  | [] => True
  | x :: l => (∀ p, parent p x → marked p) ∧ AncestorsFirst (fun y => marked y ∨ y = x) l

variable {parent} {marked : α → Prop} {a x : α}

theorem AncestorClosed.transGen (h : AncestorClosed parent marked) {d : α}
    (hreach : Relation.TransGen parent a d) (hd : marked d) : marked a := by
  induction hreach with
  | single hstep => exact h _ _ hstep hd
  | tail _ hstep ih => exact ih (h _ _ hstep hd)

theorem AncestorClosed.mark (h : AncestorClosed parent marked) (hx : ∀ p, parent p x → marked p) :
    AncestorClosed parent fun y => marked y ∨ y = x := by
  rintro p y hstep (hy | rfl)
  · exact .inl (h p y hstep hy)
  · exact .inl (hx p hstep)

theorem AncestorClosed.unmark (h : AncestorClosed parent marked) (hx : ∀ c, parent x c → ¬ marked c) :
    AncestorClosed parent fun y => marked y ∧ y ≠ x := by
  rintro p y hstep ⟨hy, -⟩
  exact ⟨h p y hstep hy, fun heq => hx y (heq ▸ hstep) hy⟩

theorem AncestorsFirst.concat {l : List α} (h : AncestorsFirst parent marked l)
    (hx : ∀ p, parent p x → marked p ∨ p ∈ l) : AncestorsFirst parent marked (l ++ [x]) := by
  induction l generalizing marked with
  | nil => exact ⟨fun p hp => (hx p hp).resolve_right List.not_mem_nil, trivial⟩
  | cons y l ih =>
    refine ⟨h.1, ih h.2 fun p hp => ?_⟩
    rcases hx p hp with hmarked | hmem
    · exact .inl (.inl hmarked)
    · rcases List.mem_cons.mp hmem with rfl | hmem
      · exact .inl (.inr rfl)
      · exact .inr hmem

theorem AncestorsFirst.take {l : List α} (h : AncestorsFirst parent marked l) (k : ℕ) :
    AncestorsFirst parent marked (l.take k) := by
  induction l generalizing marked k with
  | nil => rwa [List.take_nil]
  | cons y l ih =>
    cases k with
    | zero => trivial
    | succ k => exact ⟨h.1, ih h.2 k⟩

end WalG.Foundation
