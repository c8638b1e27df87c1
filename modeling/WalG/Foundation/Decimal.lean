import WalG.Foundation.Text
import Mathlib.Data.Char
import Mathlib.Data.List.Lex

/-! # Decimal numerals as texts

Numerals with a minimal width, compared as texts.
-/
namespace WalG.Foundation
open List

def decimalDigit (d : ℕ) : Char := Char.ofNat (48 + d)

/-- The last `w` digits of a number. -/
def decimalFixed : ℕ → ℕ → Text
  | 0, _ => []
  | w + 1, n => decimalFixed w (n / 10) ++ [decimalDigit (n % 10)]

/-- The digits of a number, with zeros in front up to `w` of them. -/
def decimalWidth (w n : ℕ) : ℕ := max w (Nat.log 10 n + 1)

def formatDecimal (w n : ℕ) : Text := decimalFixed (decimalWidth w n) n

theorem append_lt_append {s t : Text} (hlen : s.length = t.length) (h : s < t) (u v : Text) : s ++ u < t ++ v := by
  induction s generalizing t with
  | nil =>
    obtain rfl : t = [] := length_eq_zero_iff.mp hlen.symm
    exact absurd h (lt_irrefl _)
  | cons a s ih =>
    cases t with
    | nil => cases hlen
    | cons b t =>
      rw [cons_append, cons_append, cons_lt_cons_iff]
      rcases cons_lt_cons_iff.mp h with h | ⟨hab, h⟩
      · exact .inl h
      · exact .inr ⟨hab, ih (Nat.succ.inj hlen) h⟩

@[simp] theorem decimalFixed_length (w n : ℕ) : (decimalFixed w n).length = w := by
  induction w generalizing n with
  | zero => rfl
  | succ w ih => rw [decimalFixed, length_append, ih, length_singleton]

theorem decimalDigit_lt {c d : ℕ} (hcd : c < d) (hd : d < 10) : decimalDigit c < decimalDigit d := by
  interval_cases d <;> interval_cases c <;> decide

theorem decimalFixed_lt {w m n : ℕ} (hmn : m < n) (hn : n < 10 ^ w) : decimalFixed w m < decimalFixed w n := by
  induction w generalizing m n with
  | zero =>
    omega
  | succ w ih =>
    have hdiv : n / 10 < 10 ^ w := by
      rw [Nat.div_lt_iff_lt_mul (by decide)]
      rwa [Nat.pow_succ] at hn
    rw [decimalFixed, decimalFixed]
    by_cases hlow : m / 10 = n / 10
    · rw [hlow]
      apply append_left_lt
      rw [cons_lt_cons_iff]
      exact .inl (decimalDigit_lt (by omega) (Nat.mod_lt n (by decide)))
    · have hlt : m / 10 < n / 10 := by omega
      exact append_lt_append (by simp) (ih hlt hdiv) _ _

theorem decimalFixed_add (w k n : ℕ) :
    ∃ rest : Text, rest.length = k ∧ decimalFixed (w + k) n = decimalFixed w (n / 10 ^ k) ++ rest := by
  induction k generalizing n with
  | zero => exact ⟨[], rfl, by simp⟩
  | succ k ih =>
    obtain ⟨rest, hlen, heq⟩ := ih (n / 10)
    refine ⟨rest ++ [decimalDigit (n % 10)], by simp [hlen], ?_⟩
    rw [← Nat.add_assoc, decimalFixed, heq, append_assoc, Nat.div_div_eq_div_mul, ← Nat.pow_succ']

theorem lt_pow_decimalWidth (w n : ℕ) : n < 10 ^ decimalWidth w n :=
  (Nat.lt_pow_succ_log_self (by decide) n).trans_le (Nat.pow_le_pow_right (by decide) (le_max_right _ _))

theorem decimalWidth_mono (w : ℕ) {m n : ℕ} (h : m ≤ n) : decimalWidth w m ≤ decimalWidth w n :=
  max_le_max le_rfl (Nat.succ_le_succ (Nat.log_mono_right h))

theorem formatDecimal_length (w n : ℕ) : (formatDecimal w n).length = decimalWidth w n :=
  decimalFixed_length _ _

/-- A smaller number stands first as a text exactly if it is not larger with the
missing digits appended as zeros. -/
theorem formatDecimal_lt_iff {w m n : ℕ} (hmn : m < n) :
    formatDecimal w m < formatDecimal w n ↔
      m * 10 ^ (decimalWidth w n - decimalWidth w m) ≤ n := by
  obtain ⟨k, hk⟩ := Nat.exists_eq_add_of_le (decimalWidth_mono w hmn.le)
  obtain ⟨rest, hlen, heq⟩ := decimalFixed_add (decimalWidth w m) k n
  have hm := lt_pow_decimalWidth w m
  have hn := lt_pow_decimalWidth w n
  rw [hk, pow_add, ← Nat.div_lt_iff_lt_mul (by positivity)] at hn
  rw [formatDecimal, formatDecimal, hk, heq, Nat.add_sub_cancel_left, ← Nat.le_div_iff_mul_le (by positivity)]
  rcases lt_trichotomy m (n / 10 ^ k) with hlt | rfl | hgt
  · refine iff_of_true ?_ hlt.le
    have h := append_lt_append (by simp) (decimalFixed_lt hlt hn) [] rest
    rwa [append_nil] at h
  · refine iff_of_true ?_ le_rfl
    cases rest with
    | nil =>
      obtain rfl : k = 0 := hlen.symm
      rw [pow_zero, Nat.div_one] at hmn
      exact absurd hmn (lt_irrefl n)
    | cons c rest =>
      have h : decimalFixed (decimalWidth w (n / 10 ^ k)) (n / 10 ^ k) ++ [] < _ :=
        append_left_lt (nil_lt_cons c rest)
      rwa [append_nil] at h
  · refine iff_of_false ?_ hgt.not_ge
    have h := append_lt_append (by simp) (decimalFixed_lt hgt hm) rest []
    rw [append_nil] at h
    exact h.not_gt

theorem formatDecimal_injective (w : ℕ) : Function.Injective (formatDecimal w) := by
  intro m n heq
  have hwidth : decimalWidth w m = decimalWidth w n := by
    rw [← formatDecimal_length, heq, formatDecimal_length]
  have hno : ∀ {m n : ℕ}, decimalWidth w m = decimalWidth w n → m < n →
      formatDecimal w m ≠ formatDecimal w n := by
    intro m n hwidth hmn heq
    have h := (formatDecimal_lt_iff (w := w) hmn).mpr (by rw [hwidth, Nat.sub_self]; omega)
    rw [heq] at h
    exact lt_irrefl _ h
  by_contra hne
  rcases lt_or_gt_of_ne hne with hlt | hgt
  · exact hno hwidth hlt heq
  · exact hno hwidth.symm hgt heq.symm

end WalG.Foundation
