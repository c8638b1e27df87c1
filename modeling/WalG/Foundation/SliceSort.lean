import Mathlib.Data.List.Sort
import Mathlib.Tactic

/-! # Sorting a slice with a comparison

A sort that is not stable: its result is some permutation, in order whenever the comparison is a
strict weak order on the elements.
-/
namespace WalG.Foundation

variable {α : Type}

/-- A strict weak order on the elements of a list. -/
structure StrictWeakOn (less : α → α → Bool) (l : List α) : Prop where
  irrefl : ∀ a ∈ l, less a a = false
  trans : ∀ a ∈ l, ∀ b ∈ l, ∀ c ∈ l, less a b = true → less b c = true → less a c = true
  negTrans : ∀ a ∈ l, ∀ b ∈ l, ∀ c ∈ l, less a b = false → less b c = false → less a c = false

structure SliceSort (α : Type) where
  sort : (α → α → Bool) → List α → List α
  perm : ∀ less l, (sort less l).Perm l
  sorted : ∀ less l, StrictWeakOn less l → (sort less l).Pairwise fun a b => less b a = false

theorem StrictWeakOn.total {less : α → α → Bool} {l : List α} (h : StrictWeakOn less l) {a b : α}
    (ha : a ∈ l) (hb : b ∈ l) (hab : less a b = true) : less b a = false := by
  by_contra hba
  have haa := h.trans a ha b hb a ha hab (Bool.not_eq_false _ ▸ hba)
  rw [h.irrefl a ha] at haa
  cases haa

/-- A merge sort of the elements is such a sort. -/
def mergeSlice (α : Type) : SliceSort α where
  sort less l := (l.attach.mergeSort fun a b => !less b.1 a.1).map Subtype.val
  perm less l := by
    have h := (List.mergeSort_perm l.attach fun a b => !less b.1 a.1).map Subtype.val
    rwa [List.attach_map_subtype_val] at h
  sorted less l h := by
    rw [List.pairwise_map]
    refine (List.pairwise_mergeSort ?_ ?_ l.attach).imp fun hab => by simpa using hab
    · intro a b c hab hbc
      simp only [Bool.not_eq_true'] at hab hbc ⊢
      exact h.negTrans c.1 c.2 b.1 b.2 a.1 a.2 hbc hab
    · intro a b
      cases hab : less b.1 a.1 with
      | false => rfl
      | true => simp [h.total b.2 a.2 hab]

/-- It is stable, as the insertion sort of short slices is: what is in order stays as it is. -/
theorem mergeSlice_of_ordered {less : α → α → Bool} {l : List α} (h : l.Pairwise fun a b => less b a = false) :
    (mergeSlice α).sort less l = l := by
  have hattach : l.attach.Pairwise fun a b => (!less b.1 a.1) = true := by
    rw [← List.attach_map_subtype_val l, List.pairwise_map] at h
    exact h.imp fun hab => by simpa using hab
  exact (congrArg (List.map Subtype.val) (List.mergeSort_of_pairwise hattach)).trans l.attach_map_subtype_val

section Key

variable {K : Type*} [LinearOrder K] {key : α → K} {less : α → α → Bool} {l : List α}
  (h : ∀ a ∈ l, ∀ b ∈ l, less a b = decide (key a < key b))

include h

theorem strictWeakOn_key : StrictWeakOn less l where
  irrefl a ha := by simp [h a ha a ha]
  trans a ha b hb c hc hab hbc := by
    rw [h a ha b hb, decide_eq_true_eq] at hab
    rw [h b hb c hc, decide_eq_true_eq] at hbc
    rw [h a ha c hc, decide_eq_true_eq]
    exact hab.trans hbc
  negTrans a ha b hb c hc hab hbc := by
    rw [h a ha b hb, decide_eq_false_iff_not, not_lt] at hab
    rw [h b hb c hc, decide_eq_false_iff_not, not_lt] at hbc
    rw [h a ha c hc, decide_eq_false_iff_not, not_lt]
    exact hbc.trans hab

theorem SliceSort.sorted_key (s : SliceSort α) : (s.sort less l).Pairwise fun a b => key a ≤ key b := by
  refine (s.sorted less l (strictWeakOn_key h)).imp_of_mem fun {a b} ha hb hba => ?_
  rw [h b ((s.perm less l).mem_iff.mp hb) a ((s.perm less l).mem_iff.mp ha), decide_eq_false_iff_not, not_lt] at hba
  exact hba

theorem SliceSort.sort_eq_of_pairwise (s : SliceSort α) {l' : List α} (hperm : l.Perm l')
    (hl' : l'.Pairwise fun a b => key a < key b) : s.sort less l = l' := by
  have hnodup : (l'.map key).Nodup := List.pairwise_map.mpr (hl'.imp ne_of_lt)
  have hsort := (s.perm less l).trans hperm
  refine List.Perm.eq_of_pairwise (fun a b ha hb hab hba => ?_) (s.sorted_key h) (hl'.imp le_of_lt) hsort
  exact List.inj_on_of_nodup_map hnodup (hsort.mem_iff.mp ha) hb (le_antisymm hab hba)

end Key

/-- Every ordered permutation is the result of some sort. -/
theorem SliceSort.exists_sort_eq {less : α → α → Bool} {l l' : List α} (hperm : l'.Perm l)
    (hsorted : l'.Pairwise fun a b => less b a = false) : ∃ s : SliceSort α, s.sort less l = l' := by
  classical
  refine ⟨⟨fun less' m => if less' = less ∧ m = l then l' else (mergeSlice α).sort less' m, ?_, ?_⟩, if_pos ⟨rfl, rfl⟩⟩
  · intro less' m
    split_ifs with h
    · rw [h.2]
      exact hperm
    · exact (mergeSlice α).perm less' m
  · intro less' m hweak
    split_ifs with h
    · rw [h.1]
      exact hsorted
    · exact (mergeSlice α).sorted less' m hweak

end WalG.Foundation
