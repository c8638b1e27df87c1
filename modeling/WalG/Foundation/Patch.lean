import Mathlib.Tactic
import WalG.Foundation.Assoc

/-! # Guarded patches of a list

A patch is a list of positions with new values.
-/
namespace WalG.Foundation
open List

variable {α : Type*} (i : ℕ) (w : α → Bool) (as g : List α)

def patchAt (w : α → Bool) (g : List α) (b : ℕ × α) : List α :=
  if g[b.1]?.any w then g.set b.1 b.2 else g

def patch (w : α → Bool) (g : List α) (bs : List (ℕ × α)) : List α := bs.foldl (patchAt w) g

@[simp] theorem patch_nil : patch w g [] = g := rfl

@[simp] theorem patch_cons (b : ℕ × α) (bs : List (ℕ × α)) : patch w g (b :: bs) = patch w (patchAt w g b) bs := rfl

@[simp] theorem patchAt_length (b : ℕ × α) : (patchAt w g b).length = g.length := by
  unfold patchAt
  split_ifs <;> simp

@[simp] theorem patch_length (bs : List (ℕ × α)) : (patch w g bs).length = g.length := by
  induction bs generalizing g with
  | nil => rfl
  | cons b bs ih => rw [patch_cons, ih, patchAt_length]

theorem patchAt_getElem? (b : ℕ × α) : (patchAt w g b)[i]? = g[i]?.map fun a => if i = b.1 ∧ w a then b.2 else a := by
  unfold patchAt
  by_cases hi : i = b.1
  · subst hi
    cases hg : g[b.1]? with
    | none => simp [hg]
    | some a =>
      have hlt : b.1 < g.length := (List.getElem?_eq_some_iff.mp hg).1
      by_cases hw : w a
      · simp [hw, hlt]
      · simpa [hw] using hg
  · split_ifs
    · rw [getElem?_set_ne (Ne.symm hi)]
      simp [hi]
    · simp [hi]

/-- A patch without repeated positions acts on every position by itself. -/
theorem patch_getElem? {bs : List (ℕ × α)} (hnd : (bs.map Prod.fst).Nodup) (i : ℕ) :
    (patch w g bs)[i]? = g[i]?.map fun a => if w a then (bs.lookup i).getD a else a := by
  induction bs generalizing g with
  | nil => simp
  | cons b bs ih =>
    rw [map_cons, nodup_cons] at hnd
    rw [patch_cons, ih _ hnd.2, patchAt_getElem?, Option.map_map]
    congr 1
    funext a
    by_cases hi : i = b.1
    · subst hi
      have hnone : bs.lookup b.1 = none := lookup_eq_none_of_notMem hnd.1
      have hhead : (b :: bs).lookup b.1 = some b.2 := lookup_cons_self
      by_cases hw : w a
      · simp [hw, hhead, hnone]
      · simp [hw]
    · simp [hi, lookup_cons_of_ne hi]

/-- Entries past the end have no effect. -/
theorem patch_eq_self {w : α → Bool} {g : List α} {bs : List (ℕ × α)}
    (h : ∀ b ∈ bs, g.length ≤ b.1) : patch w g bs = g := by
  induction bs with
  | nil => rfl
  | cons b bs ih =>
    rw [patch_cons, patchAt, getElem?_eq_none (h b mem_cons_self)]
    exact ih fun c hc => h c (mem_cons_of_mem b hc)

/-- How many entries of the patch take effect. -/
def patchCount (w : α → Bool) (g : List α) (bs : List (ℕ × α)) : ℕ :=
  bs.countP fun b => g[b.1]?.any w

theorem patchCount_patchAt (b : ℕ × α) {bs : List (ℕ × α)}
    (hb : b.1 ∉ bs.map Prod.fst) : patchCount w (patchAt w g b) bs = patchCount w g bs := by
  apply countP_congr
  intro c hc
  have hne : c.1 ≠ b.1 := fun h => hb (h ▸ mem_map_of_mem hc)
  rw [patchAt_getElem?]
  simp [hne]

/-- The values with their positions, counted from `i`. -/
def numbered (i : ℕ) (as : List α) : List (ℕ × α) := (as.zipIdx i).map Prod.swap

@[simp] theorem numbered_nil : numbered i ([] : List α) = [] := rfl

@[simp] theorem numbered_cons (a : α) : numbered i (a :: as) = (i, a) :: numbered (i + 1) as := by
  simp [numbered, zipIdx_cons]

theorem numbered_fst : (numbered i as).map Prod.fst = range' i as.length := by
  induction as generalizing i with
  | nil => rfl
  | cons a as ih => rw [numbered_cons, map_cons, ih, length_cons, range'_succ]

theorem numbered_nodup : ((numbered i as).map Prod.fst).Nodup := by
  rw [numbered_fst]
  exact nodup_range'

theorem numbered_lookup : (numbered 0 as).lookup i = as[i]? := by
  cases h : as[i]? with
  | none =>
    apply lookup_eq_none_of_notMem
    rw [numbered_fst, mem_range'_1]
    have := getElem?_eq_none_iff.mp h
    omega
  | some a =>
    have hmem : (i, a) ∈ numbered 0 as := by
      rw [numbered, mem_map]
      exact ⟨(a, i), mk_mem_zipIdx_iff_getElem?.mpr h, rfl⟩
    exact lookup_eq_some_of_mem (numbered_nodup 0 as) hmem

end WalG.Foundation
