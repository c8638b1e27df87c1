import WalG.Foundation.Stream

/-! # Readers that deliver their data in pieces

A single read returns at most one piece, and it may return nothing at all.
-/
namespace WalG.Foundation
open List

structure PieceReader where
  pieces : List Bytes
  /-- Whether the end of the file is reported along with the last piece. -/
  eager : Bool

namespace PieceReader

variable {k : ℕ} {r r' : PieceReader} {bytes : Bytes}

/-- What the reader will still deliver. -/
def content (r : PieceReader) : Bytes := r.pieces.flatten

/-- One call of `Read` with a buffer of `k` bytes: the bytes, whether the end is reported, and the reader after it. -/
def read (k : ℕ) (r : PieceReader) : Bytes × Bool × PieceReader :=
  match r.pieces with
  | [] => ([], true, r)
  | piece :: pieces =>
    if k < piece.length then (piece.take k, false, ⟨piece.drop k :: pieces, r.eager⟩)
    else (piece, r.eager && pieces.isEmpty, ⟨pieces, r.eager⟩)

theorem read_measure (hk : k ≠ 0) (h : r.read k = (bytes, false, r')) :
    r'.pieces.length + (k - bytes.length) < r.pieces.length + k := by
  rcases r with ⟨pieces, eager⟩
  cases pieces with
  | nil => cases h
  | cons piece pieces =>
    simp only [read] at h
    split_ifs at h with hlt
    · obtain ⟨rfl, -, rfl⟩ := h
      simp only [length_cons, length_take]
      omega
    · obtain ⟨rfl, hrest⟩ := Prod.mk.inj h
      rw [← (Prod.mk.inj hrest).2, length_cons]
      dsimp only
      omega

/-- Read on until the buffer is full or the end is reported. -/
def readAtLeast (k : ℕ) (r : PieceReader) : Bytes × PieceReader :=
  if _hk : k = 0 then ([], r)
  else
    match _hread : r.read k with
    | (bytes, true, r') => (bytes, r')
    | (bytes, false, r') =>
      let rest := readAtLeast (k - bytes.length) r'
      (bytes ++ rest.1, rest.2)
termination_by r.pieces.length + k
decreasing_by exact read_measure _hk _hread

/-- Fill a buffer of `k` bytes; a buffer left short says whether anything was read. -/
def readFull (k : ℕ) (r : PieceReader) : Bytes × Option ReadError × PieceReader :=
  let result := readAtLeast k r
  (result.1, if k ≤ result.1.length then none else if result.1 = [] then some .eof else some .unexpectedEOF, result.2)

theorem read_content {ended : Bool} (h : r.read k = (bytes, ended, r')) :
    r.content = bytes ++ r'.content ∧ bytes.length ≤ k ∧ (ended → r'.content = []) := by
  rcases r with ⟨pieces, eager⟩
  cases pieces with
  | nil =>
    obtain ⟨rfl, -, rfl⟩ := h
    exact ⟨rfl, Nat.zero_le _, fun _ => rfl⟩
  | cons piece pieces =>
    simp only [read] at h
    split_ifs at h with hlt
    · obtain ⟨rfl, rfl, rfl⟩ := h
      refine ⟨?_, length_take_le _ _, nofun⟩
      simp [content, ← append_assoc]
    · obtain ⟨rfl, rfl, rfl⟩ := h
      refine ⟨rfl, not_lt.mp hlt, fun hended => ?_⟩
      rw [Bool.and_eq_true, List.isEmpty_iff] at hended
      rw [content, hended.2, flatten_nil]

/-- However the data is cut into pieces, reading on returns the front of it. -/
theorem readAtLeast_spec (k : ℕ) (r : PieceReader) :
    (r.readAtLeast k).1 = r.content.take k ∧ (r.readAtLeast k).2.content = r.content.drop k := by
  induction hm : r.pieces.length + k using Nat.strong_induction_on generalizing k r with
  | _ m ih =>
    rw [readAtLeast]
    by_cases hk : k = 0
    · rw [dif_pos hk, hk]
      exact ⟨rfl, rfl⟩
    rw [dif_neg hk]
    split
    · rename_i bytes r' hread
      obtain ⟨hcontent, hle, hended⟩ := read_content hread
      rw [hcontent, hended rfl, append_nil, take_of_length_le hle, drop_of_length_le hle]
      exact ⟨rfl, rfl⟩
    · rename_i bytes r' hread
      obtain ⟨hcontent, hle, -⟩ := read_content hread
      obtain ⟨htake, hdrop⟩ := ih _ (hm ▸ read_measure hk hread) _ r' rfl
      dsimp only
      rw [htake, hdrop, hcontent, take_append, take_of_length_le hle, drop_append, drop_of_length_le hle]
      exact ⟨rfl, rfl⟩

theorem readFull_of_le (h : k ≤ r.content.length) :
    ∃ r', r.readFull k = (r.content.take k, none, r') ∧ r'.content = r.content.drop k := by
  obtain ⟨htake, hdrop⟩ := readAtLeast_spec k r
  refine ⟨(r.readAtLeast k).2, ?_, hdrop⟩
  have hlen : k ≤ (r.content.take k).length := by
    rw [length_take]
    exact le_min le_rfl h
  simp only [readFull, htake, if_pos hlen]

theorem readFull_of_lt (h : r.content.length < k) :
    ∃ r', r.readFull k = (r.content, some (if r.content = [] then .eof else .unexpectedEOF), r') ∧ r'.content = [] := by
  obtain ⟨htake, hdrop⟩ := readAtLeast_spec k r
  rw [take_of_length_le h.le] at htake
  rw [drop_of_length_le h.le] at hdrop
  refine ⟨(r.readAtLeast k).2, ?_, hdrop⟩
  simp only [readFull, htake, if_neg (not_le.mpr h)]
  split_ifs <;> rfl

end PieceReader

end WalG.Foundation
