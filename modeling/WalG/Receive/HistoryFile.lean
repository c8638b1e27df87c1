import WalG.Foundation.Text
import WalG.Foundation.Bytes

/-! # Reading a timeline history file

A received history file is uploaded by reading it to its end.
-/
namespace WalG.Receive
open Foundation List

structure TimeLineHistFile where
  timeLineID : UInt32
  filename : Text
  data : Bytes
  readIndex : ℕ

def newTimeLineHistFile (timeLineID : UInt32) (filename : Text) (body : Bytes) : TimeLineHistFile :=
  ⟨timeLineID, filename, body, 0⟩

namespace TimeLineHistFile

variable (tlh : TimeLineHistFile)

/-- The bytes and whether the end is reported; the receiver of the caller is unchanged. -/
def read (k : ℕ) : Bytes × Bool :=
  let n := min k (tlh.data.length - tlh.readIndex)
  let copy := { tlh with readIndex := tlh.readIndex + n }
  ((tlh.data.drop tlh.readIndex).take k, decide (copy.data.length ≤ copy.readIndex))

/-- Up to `n` calls with buffers of the given sizes, until one reports the end. -/
def readAll (sizes : ℕ → ℕ) : ℕ → Bytes × Bool
  | 0 => ([], false)
  | n + 1 =>
    if (tlh.read (sizes 0)).2 then ((tlh.read (sizes 0)).1, true)
    else
      let rest := readAll (fun i => sizes (i + 1)) n
      ((tlh.read (sizes 0)).1 ++ rest.1, rest.2)

variable {tlh} (hindex : tlh.readIndex = 0) {k : ℕ} {sizes : ℕ → ℕ}

include hindex

theorem read_end (h : tlh.data.length ≤ k) : tlh.read k = (tlh.data, true) := by
  simp only [read, hindex, drop_zero, take_of_length_le h]
  rw [decide_eq_true (by omega)]

theorem read_short (h : k < tlh.data.length) : tlh.read k = (tlh.data.take k, false) := by
  simp only [read, hindex, drop_zero]
  rw [decide_eq_false (by omega)]

theorem readAll_end (h : tlh.data.length ≤ sizes 0) (n : ℕ) : tlh.readAll sizes (n + 1) = (tlh.data, true) := by
  rw [readAll, read_end hindex h, if_pos rfl]

theorem readAll_short (h : sizes 0 < tlh.data.length) {n : ℕ} {bytes : Bytes} {ended : Bool}
    (hrest : tlh.readAll (fun i => sizes (i + 1)) n = (bytes, ended)) :
    tlh.readAll sizes (n + 1) = (tlh.data.take (sizes 0) ++ bytes, ended) := by
  rw [readAll, read_short hindex h, if_neg Bool.false_ne_true, hrest]

/-- The read that reports the end delivers the whole file, whatever came before. -/
theorem data_suffix_readAll {n : ℕ} {bytes : Bytes}
    (h : tlh.readAll sizes n = (bytes, true)) : ∃ front, bytes = front ++ tlh.data := by
  induction n generalizing sizes bytes with
  | zero => cases h
  | succ n ih =>
    by_cases hle : tlh.data.length ≤ sizes 0
    · rw [readAll_end hindex hle] at h
      exact ⟨[], (Prod.mk.inj h).1.symm⟩
    · cases hrest : tlh.readAll (fun i => sizes (i + 1)) n with
      | mk rest ended =>
        rw [readAll_short hindex (not_le.mp hle) hrest] at h
        cases h
        obtain ⟨front, rfl⟩ := ih hrest
        exact ⟨tlh.data.take (sizes 0) ++ front, (append_assoc _ _ _).symm⟩

theorem readAll_small (h : ∀ i, sizes i < tlh.data.length) (n : ℕ) : (tlh.readAll sizes n).2 = false := by
  induction n generalizing sizes with
  | zero => rfl
  | succ n ih =>
    rw [readAll_short hindex (h 0) rfl]
    exact ih fun i => h (i + 1)

end TimeLineHistFile

/-- A history file is delivered whole and once exactly if it fits into the first buffer. -/
theorem readAll_newTimeLineHistFile_iff (timeLineID : UInt32) (filename : Text) (content : Bytes) (sizes : ℕ → ℕ)
    (hsizes : ∀ i, 0 < sizes i) :
    (∃ n, (newTimeLineHistFile timeLineID filename content).readAll sizes n = (content, true)) ↔
      content.length ≤ sizes 0 := by
  set tlh := newTimeLineHistFile timeLineID filename content
  have hindex : tlh.readIndex = 0 := rfl
  have hdata : tlh.data = content := rfl
  constructor
  · rintro ⟨n, hread⟩
    by_contra hlt
    cases n with
    | zero => cases hread
    | succ n =>
      cases hrest : tlh.readAll (fun i => sizes (i + 1)) n with
      | mk rest ended =>
        rw [TimeLineHistFile.readAll_short hindex (not_le.mp hlt) hrest] at hread
        obtain ⟨hbytes, rfl⟩ := Prod.mk.inj hread
        obtain ⟨front, rfl⟩ := TimeLineHistFile.data_suffix_readAll hindex hrest
        have hlen := congrArg length hbytes
        rw [hdata, length_append, length_append, length_take] at hlen
        have hpos := hsizes 0
        omega
  · exact fun hle => ⟨1, TimeLineHistFile.readAll_end hindex hle 0⟩

theorem readAll_newTimeLineHistFile_oneBuffer :
    ∃ n, (newTimeLineHistFile 2 "00000002.history".toList [49, 9, 48]).readAll (fun _ => 4) n = ([49, 9, 48], true) :=
  (readAll_newTimeLineHistFile_iff 2 _ _ _ fun _ => by decide).mpr (by decide)

/-- Two bytes read byte by byte: the first one is delivered forever. -/
theorem readAll_newTimeLineHistFile_endless :
    ¬ ∃ n bytes, (newTimeLineHistFile 2 "00000002.history".toList [49, 9]).readAll (fun _ => 1) n = (bytes, true) := by
  rintro ⟨n, bytes, hread⟩
  have hsmall := @TimeLineHistFile.readAll_small (newTimeLineHistFile 2 "00000002.history".toList [49, 9]) rfl
    (fun _ => 1) (fun _ => by decide) n
  rw [hread] at hsmall
  cases hsmall

end WalG.Receive
