import Mathlib.Tactic

/-! # Byte strings and fixed-width little-endian integers

Every on-disk format of the development stores unsigned integers least significant byte first.
-/
namespace WalG.Foundation
open List

abbrev Bytes := List UInt8

/-- The low `w` bytes of `n`, least significant first. -/
def leBytes : ℕ → ℕ → Bytes
  | 0, _ => []
  | w + 1, n => UInt8.ofNat n :: leBytes w (n / 256)

def leNat : Bytes → ℕ
  | [] => 0
  | b :: bs => b.toNat + 256 * leNat bs

@[simp] theorem leBytes_length (w n : ℕ) : (leBytes w n).length = w := by
  induction w generalizing n with
  | zero => rfl
  | succ w ih => simp [leBytes, ih]

theorem leNat_leBytes (w n : ℕ) : leNat (leBytes w n) = n % 256 ^ w := by
  induction w generalizing n with
  | zero => simp [leBytes, leNat, Nat.mod_one]
  | succ w ih =>
    have hb : (UInt8.ofNat n).toNat = n % 256 := by simp
    rw [leBytes, leNat, ih, hb, pow_succ', Nat.mod_mul]

theorem leNat_leBytes_of_lt {w n : ℕ} (h : n < 256 ^ w) : leNat (leBytes w n) = n := by
  rw [leNat_leBytes, Nat.mod_eq_of_lt h]

theorem leNat_lt (bs : Bytes) : leNat bs < 256 ^ bs.length := by
  induction bs with
  | nil => simp [leNat]
  | cons b bs ih =>
    have hb := b.toNat_lt
    rw [leNat, length_cons, pow_succ']
    omega

theorem leBytes_leNat (bs : Bytes) : leBytes bs.length (leNat bs) = bs := by
  induction bs with
  | nil => rfl
  | cons b bs ih =>
    have hb := b.toNat_lt
    have hlow : UInt8.ofNat (b.toNat + 256 * leNat bs) = b := by
      apply UInt8.toNat_inj.mp
      simp
    have hhigh : (b.toNat + 256 * leNat bs) / 256 = leNat bs := by omega
    rw [length_cons, leNat, leBytes, hlow, hhigh, ih]

/-- A table of equally wide integers, entry by entry. -/
def leTable (w : ℕ) (ns : List ℕ) : Bytes := ns.flatMap (leBytes w)

@[simp] theorem leTable_length (w : ℕ) (ns : List ℕ) : (leTable w ns).length = ns.length * w := by
  induction ns with
  | nil => simp [leTable]
  | cons n ns ih =>
    change (leBytes w n ++ leTable w ns).length = _
    rw [length_append, leBytes_length, ih, length_cons]
    ring

theorem leTable_slice (w : ℕ) (ns : List ℕ) (i : ℕ) (hi : i < ns.length) :
    ((leTable w ns).drop (i * w)).take w = leBytes w ns[i] := by
  induction ns generalizing i with
  | nil => simp at hi
  | cons n ns ih =>
    change ((leBytes w n ++ leTable w ns).drop (i * w)).take w = _
    cases i with
    | zero => simp
    | succ i =>
      have hw : (i + 1) * w = (leBytes w n).length + i * w := by
        rw [leBytes_length]; ring
      rw [hw, drop_length_add_append, ih i (by simpa using hi)]
      rfl

end WalG.Foundation
