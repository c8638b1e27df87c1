import WalG.Foundation.Text

/-! # Hexadecimal numerals

Upper-case formatting with a minimal width and parsing into a fixed number of bits.
-/
namespace WalG.Foundation
open List

variable {c : Char} {bits w m n value d : ℕ} {s : Text}

def hexDigit (d : ℕ) : Char := if d < 10 then Char.ofNat (48 + d) else Char.ofNat (55 + d)

/-- The digits a parser for base 16 accepts. -/
def hexValue (c : Char) : Option ℕ :=
  if '0' ≤ c ∧ c ≤ '9' then some (c.toNat - 48)
  else if 'A' ≤ c ∧ c ≤ 'F' then some (c.toNat - 55)
  else if 'a' ≤ c ∧ c ≤ 'f' then some (c.toNat - 87)
  else none

def isUpperHex (c : Char) : Bool := ('0' ≤ c ∧ c ≤ '9') ∨ ('A' ≤ c ∧ c ≤ 'F')

/-- The last `w` digits of a number. -/
def hexFixed : ℕ → ℕ → Text
  | 0, _ => []
  | w + 1, n => hexFixed w (n / 16) ++ [hexDigit (n % 16)]

/-- At least `w` digits, padded with zeros. -/
def formatHex (w n : ℕ) : Text := hexFixed (max w (Nat.log 16 n + 1)) n

/-- A nonempty numeral whose value fits into the bits. -/
def parseHex (bits : ℕ) (s : Text) : Option ℕ :=
  if s = [] then none
  else
    match s.foldlM (fun acc c => (hexValue c).map (16 * acc + ·)) 0 with
    | none => none
    | some value => if value < 2 ^ bits then some value else none

theorem hexValue_hexDigit (h : d < 16) : hexValue (hexDigit d) = some d := by
  interval_cases d <;> decide

theorem isUpperHex_hexDigit (h : d < 16) : isUpperHex (hexDigit d) = true := by
  interval_cases d <;> decide

@[simp] theorem hexFixed_length (w n : ℕ) : (hexFixed w n).length = w := by
  induction w generalizing n with
  | zero => rfl
  | succ w ih => rw [hexFixed, length_append, ih, length_singleton]

theorem isUpperHex_of_mem_hexFixed (h : c ∈ hexFixed w n) : isUpperHex c = true := by
  induction w generalizing n with
  | zero => cases h
  | succ w ih =>
    rcases mem_append.mp h with h | h
    · exact ih h
    · rw [mem_singleton.mp h]
      exact isUpperHex_hexDigit (Nat.mod_lt n (by decide))

theorem formatHex_eq_hexFixed (hw : 0 < w) (h : n < 16 ^ w) : formatHex w n = hexFixed w n := by
  have hlog : Nat.log 16 n < w := Nat.log_lt_of_lt_pow' hw.ne' h
  rw [formatHex, Nat.max_eq_left hlog]

theorem foldlM_hexFixed (h : n < 16 ^ w) :
    (hexFixed w n).foldlM (fun acc c => (hexValue c).map (16 * acc + ·)) 0 = some n := by
  induction w generalizing n with
  | zero =>
    obtain rfl : n = 0 := by simpa using h
    rfl
  | succ w ih =>
    have hdiv : n / 16 < 16 ^ w := by
      rw [Nat.div_lt_iff_lt_mul (by decide)]
      rwa [Nat.pow_succ] at h
    rw [hexFixed, foldlM_append, ih hdiv]
    simp [hexValue_hexDigit (Nat.mod_lt n (by decide : 16 > 0)), Nat.div_add_mod]

theorem parseHex_hexFixed (hw : 0 < w) (h : n < 16 ^ w) (hbits : n < 2 ^ bits) :
    parseHex bits (hexFixed w n) = some n := by
  have hne : hexFixed w n ≠ [] := by
    intro hnil
    have hlen := hexFixed_length w n
    rw [hnil, length_nil] at hlen
    omega
  rw [parseHex, if_neg hne, foldlM_hexFixed h]
  exact if_pos hbits

theorem hexFixed_injective (hm : m < 16 ^ w) (hn : n < 16 ^ w) (h : hexFixed w m = hexFixed w n) : m = n := by
  have hparse := foldlM_hexFixed hm
  rw [h, foldlM_hexFixed hn] at hparse
  exact (Option.some.inj hparse).symm

theorem hexFixed_add (a b n : ℕ) : hexFixed (a + b) n = hexFixed a (n / 16 ^ b) ++ hexFixed b n := by
  induction b generalizing n with
  | zero => simp [hexFixed]
  | succ b ih =>
    rw [← Nat.add_assoc, hexFixed, ih, hexFixed, Nat.div_div_eq_div_mul, pow_succ', append_assoc]

theorem hexFixed_mod (b n : ℕ) : hexFixed b (n % 16 ^ b) = hexFixed b n := by
  induction b generalizing n with
  | zero => rfl
  | succ b ih =>
    have hlow : n % 16 ^ (b + 1) % 16 = n % 16 := Nat.mod_mod_of_dvd n (dvd_pow_self 16 b.succ_ne_zero)
    have hhigh : n % 16 ^ (b + 1) / 16 = n / 16 % 16 ^ b := by
      rw [pow_succ', Nat.mod_mul_right_div_self]
    rw [hexFixed, hexFixed, hlow, hhigh, ih]

theorem parseHex_lt (h : parseHex bits s = some value) : value < 2 ^ bits := by
  rw [parseHex] at h
  split_ifs at h
  split at h
  · cases h
  · split_ifs at h with hlt
    exact Option.some.inj h ▸ hlt

theorem hexDigit_of_hexValue (h : hexValue c = some d) : d < 16 ∧ hexDigit d = c.toUpper := by
  have hall : ∀ n < 103, ∀ d, hexValue (Char.ofNat n) = some d → d < 16 ∧ hexDigit d = (Char.ofNat n).toUpper := by
    intro n hn d
    interval_cases n <;> simp +decide [hexValue] <;> rintro rfl <;> decide
  have hle : c.toNat < 103 := by
    rw [hexValue] at h
    split_ifs at h with h₁ h₂ h₃
    · exact lt_of_le_of_lt h₁.2 (by decide)
    · exact lt_of_le_of_lt h₂.2 (by decide)
    · exact lt_of_le_of_lt h₃.2 (by decide)
  rw [← Char.ofNat_toNat c] at h ⊢
  exact hall _ hle d h

/-- The numeral of a parsed value is the text in upper case. -/
theorem hexFixed_of_parseHex (h : parseHex bits s = some value) : hexFixed s.length value = s.map Char.toUpper := by
  have hfold : s.foldlM (fun acc c => (hexValue c).map (16 * acc + ·)) 0 = some value := by
    rw [parseHex] at h
    split_ifs at h
    split at h
    · cases h
    · split_ifs at h
      simp_all
  clear h
  induction s using reverseRecOn generalizing value with
  | nil => rfl
  | append_singleton s c ih =>
    rw [foldlM_append] at hfold
    obtain ⟨high, hhigh, hfold⟩ := Option.bind_eq_some_iff.mp hfold
    obtain ⟨d, hd, rfl⟩ : ∃ d, hexValue c = some d ∧ 16 * high + d = value := by simpa using hfold
    obtain ⟨hlt, hdigit⟩ := hexDigit_of_hexValue hd
    rw [length_append, length_singleton, hexFixed, map_append, ← ih hhigh, show (16 * high + d) / 16 = high by omega,
      show (16 * high + d) % 16 = d by omega, hdigit]
    rfl

theorem hexDigit_lt_iff {e : ℕ} (hd : d < 16) (he : e < 16) : hexDigit d < hexDigit e ↔ d < e := by
  have hall : ∀ d < 16, ∀ e < 16, hexDigit d < hexDigit e ↔ d < e := by decide
  exact hall d hd e he

theorem textLess_hexFixed (hm : m < 16 ^ w) (hn : n < 16 ^ w) :
    textLess (hexFixed w m) (hexFixed w n) = true ↔ m < n := by
  induction w generalizing m n with
  | zero =>
    rw [pow_zero, Nat.lt_one_iff] at hm hn
    simp [hm, hn, hexFixed, textLess]
  | succ w ih =>
    rw [pow_succ] at hm hn
    have hm' : m / 16 < 16 ^ w := Nat.div_lt_of_lt_mul (by omega)
    have hn' : n / 16 < 16 ^ w := Nat.div_lt_of_lt_mul (by omega)
    have hdigit : textLess [hexDigit (m % 16)] [hexDigit (n % 16)] = true ↔ m % 16 < n % 16 := by
      rw [← hexDigit_lt_iff (Nat.mod_lt m (by decide)) (Nat.mod_lt n (by decide))]
      simp [textLess]
    rw [hexFixed, hexFixed, textLess_append_iff (by simp), ih hm' hn', hdigit]
    constructor
    · rintro (hlt | ⟨heq, hlt⟩)
      · omega
      · have hdiv := hexFixed_injective hm' hn' heq
        omega
    · intro hlt
      by_cases hdiv : m / 16 < n / 16
      · exact .inl hdiv
      · have heq : m / 16 = n / 16 := by omega
        exact .inr ⟨by rw [heq], by omega⟩

end WalG.Foundation
