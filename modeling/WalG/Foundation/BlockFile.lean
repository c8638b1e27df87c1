import WalG.Foundation.Bytes
import Mathlib.Data.Vector.Basic

/-! # Random-access byte files and their block view

A file is a byte string; truncation and writes past the end fill with zero bytes.
-/
namespace WalG.Foundation
open List

abbrev Block (n : ℕ) := List.Vector UInt8 n

def zeroBlock (n : ℕ) : Block n := List.Vector.replicate n 0

/-- Change the length of a file, filling with zeros. -/
def truncate (f : Bytes) (size : ℕ) : Bytes := f.take size ++ replicate (size - f.length) 0

/-- Write `d` at offset `off`, filling a gap after the end with zeros. -/
def writeAt (f : Bytes) (off : ℕ) (d : Bytes) : Bytes :=
  truncate f off ++ d ++ f.drop (off + d.length)

/-- Read `k` bytes at offset `off`; nothing is returned for a read past the end. -/
def readAt (f : Bytes) (off k : ℕ) : Option Bytes :=
  if off + k ≤ f.length then some ((f.drop off).take k) else none

/-- The file made of the given blocks. -/
def joinBlocks {n : ℕ} (bs : List (Block n)) : Bytes := bs.flatMap List.Vector.toList

/-- Change the number of blocks, filling with zero blocks. -/
def resizeBlocks {n : ℕ} (bs : List (Block n)) (k : ℕ) : List (Block n) :=
  bs.take k ++ replicate (k - bs.length) (zeroBlock n)

theorem truncate_length (f : Bytes) (size : ℕ) : (truncate f size).length = size := by
  rw [truncate, length_append, length_take, length_replicate]
  omega

theorem writeAt_length (f : Bytes) (off : ℕ) (d : Bytes) :
    (writeAt f off d).length = max f.length (off + d.length) := by
  rw [writeAt, length_append, length_append, truncate_length, length_drop]
  omega

variable {n : ℕ} (bs : List (Block n)) (k : ℕ) (f : Bytes)

@[simp] theorem joinBlocks_nil : joinBlocks ([] : List (Block n)) = [] := rfl

@[simp] theorem joinBlocks_cons (b : Block n) : joinBlocks (b :: bs) = b.toList ++ joinBlocks bs := rfl

@[simp] theorem joinBlocks_append (cs : List (Block n)) :
    joinBlocks (bs ++ cs) = joinBlocks bs ++ joinBlocks cs := flatMap_append

@[simp] theorem joinBlocks_length : (joinBlocks bs).length = bs.length * n := by
  induction bs with
  | nil => simp
  | cons b bs ih =>
    rw [joinBlocks_cons, length_append, ih, Vector.toList_length, length_cons]
    ring

theorem joinBlocks_replicate_zero : joinBlocks (replicate k (zeroBlock n)) = replicate (k * n) 0 := by
  induction k with
  | zero => simp
  | succ k ih =>
    rw [replicate_succ, joinBlocks_cons, ih]
    change replicate n 0 ++ _ = _
    rw [replicate_append_replicate]
    congr 1
    ring

theorem drop_joinBlocks : (joinBlocks bs).drop (k * n) = joinBlocks (bs.drop k) := by
  induction k generalizing bs with
  | zero => simp
  | succ k ih =>
    cases bs with
    | nil => simp
    | cons b bs =>
      have hk : (k + 1) * n = b.toList.length + k * n := by
        rw [Vector.toList_length]; ring
      rw [joinBlocks_cons, hk, drop_length_add_append, ih]
      rfl

theorem take_joinBlocks : (joinBlocks bs).take (k * n) = joinBlocks (bs.take k) := by
  induction k generalizing bs with
  | zero => simp
  | succ k ih =>
    cases bs with
    | nil => simp
    | cons b bs =>
      have hk : (k + 1) * n = b.toList.length + k * n := by
        rw [Vector.toList_length]; ring
      rw [joinBlocks_cons, hk, take_length_add_append, ih]
      rfl

theorem joinBlocks_injective (hn : 0 < n) : Function.Injective (joinBlocks (n := n)) := by
  intro bs cs h
  induction bs generalizing cs with
  | nil =>
    cases cs with
    | nil => rfl
    | cons c cs =>
      have hl := congrArg length h
      simp only [joinBlocks_length, length_nil, length_cons] at hl
      have : 0 < (cs.length + 1) * n := Nat.mul_pos (Nat.succ_pos _) hn
      omega
  | cons b bs ih =>
    cases cs with
    | nil =>
      have hl := congrArg length h
      simp only [joinBlocks_length, length_nil, length_cons] at hl
      have : 0 < (bs.length + 1) * n := Nat.mul_pos (Nat.succ_pos _) hn
      omega
    | cons c cs =>
      rw [joinBlocks_cons, joinBlocks_cons] at h
      have hlen : b.toList.length = c.toList.length := by simp
      obtain ⟨hb, ht⟩ := append_inj h hlen
      rw [Vector.eq b c hb, ih ht]

@[simp] theorem resizeBlocks_length : (resizeBlocks bs k).length = k := by
  rw [resizeBlocks, length_append, length_take, length_replicate]
  omega

theorem resizeBlocks_getElem? (i : ℕ) (hi : i < k) : (resizeBlocks bs k)[i]? = some (bs[i]?.getD (zeroBlock n)) := by
  rw [resizeBlocks]
  by_cases hb : i < bs.length
  · rw [getElem?_append_left (by rw [length_take]; omega), getElem?_take_of_lt hi]
    simp [hb]
  · rw [getElem?_append_right (by rw [length_take]; omega), getElem?_replicate]
    rw [if_pos (by rw [length_take]; omega)]
    simp [getElem?_eq_none (by omega : bs.length ≤ i)]

theorem truncate_joinBlocks : truncate (joinBlocks bs) (k * n) = joinBlocks (resizeBlocks bs k) := by
  rw [truncate, resizeBlocks, joinBlocks_append, take_joinBlocks, joinBlocks_replicate_zero,
    joinBlocks_length, Nat.sub_mul]

theorem writeAt_joinBlocks_lt (b : Block n) (hk : k < bs.length) :
    writeAt (joinBlocks bs) (k * n) b.toList = joinBlocks (bs.set k b) := by
  have hnext : k * n + b.toList.length = (k + 1) * n := by
    rw [Vector.toList_length]; ring
  rw [writeAt, truncate_joinBlocks, hnext, drop_joinBlocks, set_eq_take_append_cons_drop,
    if_pos hk, joinBlocks_append, joinBlocks_cons, resizeBlocks, Nat.sub_eq_zero_of_le hk.le]
  simp

theorem writeAt_joinBlocks_end (b : Block n) :
    writeAt (joinBlocks bs) (bs.length * n) b.toList = joinBlocks (bs ++ [b]) := by
  have hnext : bs.length * n + b.toList.length = (bs.length + 1) * n := by
    rw [Vector.toList_length]; ring
  rw [writeAt, truncate_joinBlocks, hnext, drop_joinBlocks, resizeBlocks, drop_eq_nil_of_le (Nat.le_succ _)]
  simp

theorem readAt_joinBlocks (m : ℕ) (hk : k < bs.length) (hm : m ≤ n) :
    readAt (joinBlocks bs) (k * n) m = some (bs[k].toList.take m) := by
  have hlen : (k + 1) * n ≤ bs.length * n := Nat.mul_le_mul_right n hk
  have hle : k * n + m ≤ (joinBlocks bs).length := by
    rw [joinBlocks_length]
    have : (k + 1) * n = k * n + n := by ring
    omega
  have hm' : m ≤ bs[k].toList.length := by
    rw [Vector.toList_length]; exact hm
  rw [readAt, if_pos hle, drop_joinBlocks, drop_eq_getElem_cons hk, joinBlocks_cons, take_append_of_le_length hm']

/-- The first block of a file, filled up with zeros. -/
def firstBlock (n : ℕ) (f : Bytes) : Block n := ⟨truncate f n, truncate_length f n⟩

theorem firstBlock_toList : (firstBlock n f).toList = truncate f n := rfl

/-- The first `k` blocks of a file. -/
def takeBlocks (n : ℕ) : ℕ → Bytes → List (Block n)
  | 0, _ => []
  | k + 1, f => firstBlock n f :: takeBlocks n k (f.drop n)

/-- The whole blocks a file starts with. -/
def wholeBlocks (n : ℕ) (f : Bytes) : List (Block n) := takeBlocks n (f.length / n) f

theorem joinBlocks_takeBlocks (h : k * n ≤ f.length) : joinBlocks (takeBlocks n k f) = f.take (k * n) := by
  induction k generalizing f with
  | zero => simp [takeBlocks]
  | succ k ih =>
    have hn : n ≤ f.length := le_trans (Nat.le_mul_of_pos_left n (Nat.succ_pos k)) h
    have hdrop : k * n ≤ (f.drop n).length := by
      rw [length_drop]
      rw [Nat.succ_mul] at h
      omega
    have hhead : truncate f n = f.take n := by simp [truncate, Nat.sub_eq_zero_of_le hn]
    rw [takeBlocks, joinBlocks_cons, ih _ hdrop, Nat.succ_mul, Nat.add_comm, take_add, firstBlock_toList, hhead]

theorem wholeBlocks_append_rest (hn : 0 < n) :
    ∃ rest, f = joinBlocks (wholeBlocks n f) ++ rest ∧ rest.length < n := by
  refine ⟨f.drop (f.length / n * n), ?_, ?_⟩
  · rw [wholeBlocks, joinBlocks_takeBlocks _ _ (Nat.div_mul_le_self _ _), take_append_drop]
  · rw [length_drop]
    have hdiv := Nat.div_add_mod f.length n
    have hmod := Nat.mod_lt f.length hn
    rw [Nat.mul_comm] at hdiv
    omega

theorem wholeBlocks_joinBlocks (hn : 0 < n) : wholeBlocks n (joinBlocks bs) = bs := by
  apply joinBlocks_injective hn
  rw [wholeBlocks, joinBlocks_takeBlocks _ _ (Nat.div_mul_le_self _ _), joinBlocks_length,
    Nat.mul_div_cancel _ hn, ← joinBlocks_length, take_length]

end WalG.Foundation
