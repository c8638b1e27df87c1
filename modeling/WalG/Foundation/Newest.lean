import Mathlib.Data.List.Sort
import Mathlib.Tactic

/-! # The newest elements of a list

With equal keys there is a choice of which elements are the `k` newest.
-/
namespace WalG.Foundation
open List

variable {α : Type} {K : Type*} [LinearOrder K]

structure Newest (key : α → K) (all : List α) (k : ℕ) (newest : List α) : Prop where
  nodup : newest.Nodup
  subset : newest ⊆ all
  length : newest.length = k
  above : ∀ a ∈ all, a ∉ newest → ∀ b ∈ newest, key a ≤ key b

variable {key : α → K} {all newest : List α} {k : ℕ} {kept : α → Prop} [DecidablePred kept]

theorem Newest.le_countP (h : Newest key all k newest) (hkept : ∀ a ∈ newest, kept a) {a : α}
    (ha : a ∈ all) (hnot : ¬ kept a) : k ≤ all.countP fun b => kept b ∧ key a ≤ key b := by
  have hall : ∀ b ∈ newest, decide (kept b ∧ key a ≤ key b) = true := fun b hb =>
    decide_eq_true ⟨hkept b hb, h.above a ha (fun hmem => hnot (hkept a hmem)) b hb⟩
  calc k = newest.countP fun b => kept b ∧ key a ≤ key b := by
        rw [countP_eq_length.mpr hall, h.length]
    _ ≤ _ := (h.nodup.subperm h.subset).countP_le _

/-- In decreasing order the first ones are not below an element, if there are enough
that are not below it. -/
theorem take_above {sorted : List α} (hsorted : sorted.Pairwise fun a b => key b ≤ key a) {x : K}
    (hk : k ≤ sorted.countP fun b => x ≤ key b) : ∀ b ∈ sorted.take k, x ≤ key b := by
  intro b hb
  by_contra hlt
  rw [← take_append_drop k sorted, pairwise_append] at hsorted
  have hdrop : (sorted.drop k).countP (fun b => x ≤ key b) = 0 := by
    rw [countP_eq_zero]
    intro c hc hle
    exact hlt ((of_decide_eq_true hle).trans (hsorted.2.2 b hb c hc))
  rw [← take_append_drop k sorted, countP_append, hdrop, Nat.add_zero] at hk
  have hlen : (sorted.take k).length ≤ k := length_take_le k sorted
  have hall := countP_eq_length.mp (le_antisymm countP_le_length (hlen.trans hk)) b hb
  exact hlt (of_decide_eq_true hall)

theorem le_countP_of_mem_drop {sorted : List α} (hsorted : sorted.Pairwise fun a b => key b ≤ key a)
    {a : α} (ha : a ∈ sorted.drop k) : k + 1 ≤ sorted.countP fun b => key a ≤ key b := by
  have hlen : k < sorted.length := by
    by_contra hge
    rw [drop_eq_nil_of_le (not_lt.mp hge)] at ha
    cases ha
  rw [← take_append_drop k sorted, pairwise_append] at hsorted
  have htake : (sorted.take k).countP (fun b => key a ≤ key b) = k := by
    rw [countP_eq_length.mpr fun b hb => decide_eq_true (hsorted.2.2 b hb a ha), length_take_of_le hlen.le]
  have hdrop : 0 < (sorted.drop k).countP fun b => key a ≤ key b :=
    countP_pos_iff.mpr ⟨a, ha, decide_eq_true le_rfl⟩
  calc k + 1 ≤ (sorted.take k).countP (fun b => key a ≤ key b) +
        (sorted.drop k).countP fun b => key a ≤ key b := by omega
    _ = sorted.countP fun b => key a ≤ key b := by rw [← countP_append, take_append_drop]

theorem exists_newest_iff (hnodup : all.Nodup) (hk : k ≤ all.length) :
    (∃ newest, Newest key all k newest ∧ ∀ a ∈ newest, kept a) ↔
      ∀ a ∈ all, ¬ kept a → k ≤ all.countP fun b => kept b ∧ key a ≤ key b := by
  constructor
  · rintro ⟨newest, h, hkept⟩ a ha hnot
    exact h.le_countP hkept ha hnot
  · intro h
    let sorted := (all.filter kept).mergeSort fun a b => decide (key b ≤ key a)
    have hperm : sorted.Perm (all.filter kept) := mergeSort_perm _ _
    have hsorted : sorted.Pairwise fun a b => key b ≤ key a := by
      refine (pairwise_mergeSort ?_ ?_ _).imp fun hab => of_decide_eq_true hab
      · intro a b c hab hbc
        exact decide_eq_true ((of_decide_eq_true hbc).trans (of_decide_eq_true hab))
      · intro a b
        simpa using le_total (key b) (key a)
    have hmem : ∀ a, a ∈ sorted ↔ a ∈ all ∧ kept a := by
      intro a
      rw [hperm.mem_iff, mem_filter, decide_eq_true_eq]
    have hcount : ∀ x, sorted.countP (fun b => x ≤ key b) = all.countP fun b => kept b ∧ x ≤ key b := by
      intro x
      rw [hperm.countP_eq, countP_filter]
      exact countP_congr fun b _ => by simp [and_comm]
    have hlen : k ≤ sorted.length := by
      by_cases hall : ∀ a ∈ all, kept a
      · rwa [hperm.length_eq, filter_eq_self.mpr fun a ha => decide_eq_true (hall a ha)]
      · push Not at hall
        obtain ⟨a, ha, hnot⟩ := hall
        calc k ≤ _ := h a ha hnot
          _ = _ := (hcount _).symm
          _ ≤ _ := countP_le_length
    refine ⟨sorted.take k, ⟨?_, ?_, length_take_of_le hlen, ?_⟩, ?_⟩
    · exact (hperm.nodup_iff.mpr (hnodup.filter _)).sublist (take_sublist _ _)
    · exact fun a ha => ((hmem a).mp (mem_of_mem_take ha)).1
    · intro a ha hnot b hb
      by_cases hkept : kept a
      · have hdrop : a ∈ sorted.drop k := by
          have hsplit := (hmem a).mpr ⟨ha, hkept⟩
          rw [← take_append_drop k sorted] at hsplit
          exact (mem_append.mp hsplit).resolve_left hnot
        rw [← take_append_drop k sorted, pairwise_append] at hsorted
        exact hsorted.2.2 b hb a hdrop
      · exact take_above hsorted (by rw [hcount]; exact h a ha hkept) b hb
    · exact fun a ha => ((hmem a).mp (mem_of_mem_take ha)).2

theorem exists_newest (key : α → K) (hnodup : all.Nodup) (hk : k ≤ all.length) :
    ∃ newest, Newest key all k newest := by
  have hall : ∀ a ∈ all, ¬ (fun _ => True) a → k ≤ all.countP fun b => (fun _ => True) b ∧ key a ≤ key b :=
    fun _ _ hnot => absurd trivial hnot
  obtain ⟨newest, hnewest, -⟩ := (exists_newest_iff hnodup hk).mpr hall
  exact ⟨newest, hnewest⟩

end WalG.Foundation
