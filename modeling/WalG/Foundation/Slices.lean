import Mathlib.Tactic

/-! # Equal slices of a sequence, filled one buffer at a time

The whole slices of a sequence are its consecutive pieces of one length; what is left over is
shorter than a slice.
-/
namespace WalG.Foundation
open List

variable {α : Type}

/-- The consecutive pieces of length `n`, without the shorter rest. -/
def slices (n : ℕ) (s : List α) : List (List α) :=
  (range (s.length / n)).map fun i => (s.drop (i * n)).take n

/-- What is left after the whole slices. -/
def sliceRest (n : ℕ) (s : List α) : List α := s.drop (s.length / n * n)

/-- Copy the front of `src` into a buffer from position `off` on, as far as it fits. -/
def copyAt (buf : List α) (off : ℕ) (src : List α) : List α :=
  buf.take off ++ src.take (buf.length - off) ++ buf.drop (off + src.length)

theorem slices_of_short {n : ℕ} {s : List α} (h : s.length < n) : slices n s = [] := by
  rw [slices, Nat.div_eq_of_lt h]
  rfl

theorem sliceRest_of_short {n : ℕ} {s : List α} (h : s.length < n) : sliceRest n s = s := by
  rw [sliceRest, Nat.div_eq_of_lt h, Nat.zero_mul, drop_zero]

section FirstSlice

variable {n : ℕ} {a : List α} (ha : a.length = n) (hn : 0 < n) (b : List α)

include ha hn

theorem div_length_append : (a ++ b).length / n = b.length / n + 1 := by
  rw [length_append, ha, Nat.add_div_left _ hn]

theorem slices_append : slices n (a ++ b) = a :: slices n b := by
  rw [slices, div_length_append ha hn, range_succ_eq_map, map_cons, map_map, Nat.zero_mul, drop_zero, take_left' ha]
  congr 1
  apply map_congr_left
  intro i _
  have hi : (i + 1) * n = a.length + i * n := by rw [ha]; ring
  rw [Function.comp_apply, Nat.succ_eq_add_one, hi, drop_length_add_append]

theorem sliceRest_append : sliceRest n (a ++ b) = sliceRest n b := by
  have hi : (b.length / n + 1) * n = a.length + b.length / n * n := by rw [ha]; ring
  rw [sliceRest, div_length_append ha hn, hi, drop_length_add_append, sliceRest]

end FirstSlice

/-- Induction over the slices: a sequence is shorter than a slice, or a slice before a sequence. -/
theorem slice_induction {n : ℕ} (hn : 0 < n) {motive : List α → Prop} (short : ∀ s, s.length < n → motive s)
    (append : ∀ a b, a.length = n → motive b → motive (a ++ b)) (s : List α) : motive s := by
  induction hk : s.length / n generalizing s with
  | zero => exact short s ((Nat.div_eq_zero_iff_lt hn).mp hk)
  | succ k ih =>
    have hle : n ≤ s.length := (Nat.one_le_div_iff hn).mp (by omega)
    have ha : (s.take n).length = n := length_take_of_le hle
    have hs := take_append_drop n s
    have hdiv := div_length_append ha hn (s.drop n)
    rw [hs, hk] at hdiv
    rw [← hs]
    exact append _ _ ha (ih (s.drop n) (by omega))

theorem slices_flatten {n : ℕ} (hn : 0 < n) (s : List α) : (slices n s).flatten ++ sliceRest n s = s := by
  induction s using slice_induction hn with
  | short s hs => rw [slices_of_short hs, sliceRest_of_short hs, flatten_nil, nil_append]
  | append a b ha ih =>
    rw [slices_append ha hn, sliceRest_append ha hn, flatten_cons, append_assoc, ih]

/-- Slicing goes on where it stopped: what is left over of a sequence comes before what is appended. -/
theorem slices_append_rest {n : ℕ} (hn : 0 < n) (s t : List α) :
    slices n (s ++ t) = slices n s ++ slices n (sliceRest n s ++ t) ∧
      sliceRest n (s ++ t) = sliceRest n (sliceRest n s ++ t) := by
  induction s using slice_induction hn with
  | short s hs =>
    rw [slices_of_short hs, sliceRest_of_short hs, nil_append]
    exact ⟨rfl, rfl⟩
  | append a b ha ih =>
    obtain ⟨hslices, hrest⟩ := ih
    rw [append_assoc, slices_append ha hn, slices_append ha hn, sliceRest_append ha hn,
      sliceRest_append ha hn, hslices, hrest]
    exact ⟨rfl, rfl⟩

theorem length_of_mem_slices {n : ℕ} {s a : List α} (ha : a ∈ slices n s) : a.length = n := by
  obtain ⟨i, hi, rfl⟩ := mem_map.mp ha
  rw [length_take, length_drop]
  have hlt := mem_range.mp hi
  have hmul : (i + 1) * n ≤ s.length := (Nat.mul_le_mul_right n hlt).trans (Nat.div_mul_le_self _ _)
  rw [Nat.add_mul, Nat.one_mul] at hmul
  omega

theorem sliceRest_length (n : ℕ) (s : List α) : (sliceRest n s).length = s.length % n := by
  rw [sliceRest, length_drop, Nat.mod_eq_sub_div_mul]

variable {buf : List α} {off : ℕ} {src got : List α}

theorem copyAt_length (hoff : off ≤ buf.length) : (copyAt buf off src).length = buf.length := by
  rw [copyAt, length_append, length_append, length_take_of_le hoff, length_take, length_drop]
  omega

theorem copyAt_take (hoff : got.length ≤ buf.length) (hgot : buf.take got.length = got) {k : ℕ}
    (hk : k = min buf.length (got ++ src).length) :
    (copyAt buf got.length src).take k = (got ++ src).take buf.length := by
  have hfront : (got ++ src.take (buf.length - got.length)).length = k := by
    rw [length_append, length_take, hk, length_append]
    omega
  rw [copyAt, hgot, take_left' hfront, take_append, take_of_length_le hoff]

end WalG.Foundation
