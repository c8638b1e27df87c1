import WalG.Wal.SegmentName

/-! # The name of a streaming base backup

The name is the timeline and the number of the first segment in sixteen digits, while the file name
of a segment has its number split at the XLog id.
-/
namespace WalG.Tarball
open Foundation Wal

structure StreamingBaseBackup where
  timeLine : UInt32
  startLSN : UInt64

namespace StreamingBaseBackup

variable (w : WalSize) (bb : StreamingBaseBackup)

def backupName : Text :=
  let segID := bb.startLSN.toNat / w.walSegmentSize
  "base_".toList ++ (formatHex 8 bb.timeLine.toNat ++ formatHex 16 segID)

/-- The part of the name after `base_`. -/
def segmentPart : Text := (bb.backupName w).drop "base_".toList.length

def startSegment : WalSegment w where
  timeline := bb.timeLine.toNat
  no := newWalSegmentNo w bb.startLSN.toNat
  timeline_lt := bb.timeLine.toNat_lt
  no_lt := newWalSegmentNo_div_lt w bb.startLSN.toNat_lt

theorem segmentPart_eq : bb.segmentPart w = hexFixed 8 bb.timeLine.toNat ++
    (hexFixed 8 ((bb.startSegment w).no / 2 ^ 32) ++ hexFixed 8 ((bb.startSegment w).no % 2 ^ 32)) := by
  have hlt : (bb.startSegment w).no < 16 ^ 16 :=
    (Nat.div_le_self _ _).trans_lt (bb.startLSN.toNat_lt.trans_le (by norm_num))
  have hsplit := hexFixed_add 8 8 (bb.startSegment w).no
  rw [← hexFixed_mod 8 (bb.startSegment w).no] at hsplit
  rw [segmentPart, backupName, List.drop_left, formatHex_eq_hexFixed (by decide) bb.timeLine.toNat_lt]
  change _ ++ formatHex 16 (bb.startSegment w).no = _
  rw [formatHex_eq_hexFixed (by decide) hlt]
  exact congrArg _ hsplit

/-- The two ways to split the number of a segment agree only below the first XLog id. -/
theorem split_eq_iff (lsn : ℕ) :
    newWalSegmentNo w lsn / 2 ^ 32 = newWalSegmentNo w lsn / w.xLogSegmentsPerXLogID ∧
      newWalSegmentNo w lsn % 2 ^ 32 = newWalSegmentNo w lsn % w.xLogSegmentsPerXLogID ↔
    lsn < 2 ^ 32 ∨ w.exponent = 0 := by
  constructor
  · rintro ⟨hdiv, -⟩
    by_contra hnot
    obtain ⟨hle, hexponent⟩ := not_or.mp hnot
    have hcomm : newWalSegmentNo w lsn / 2 ^ 32 = lsn / 2 ^ 32 / w.walSegmentSize := by
      rw [newWalSegmentNo, Nat.div_div_eq_div_mul, Nat.div_div_eq_div_mul, Nat.mul_comm]
    have hpos : 0 < lsn / 2 ^ 32 := Nat.div_pos (not_lt.mp hle) (by decide)
    have hsize : 1 < w.walSegmentSize := Nat.one_lt_two_pow hexponent
    rw [newWalSegmentNo_div, hcomm] at hdiv
    exact (Nat.div_lt_self hpos hsize).ne hdiv
  · rintro (hlt | hexponent)
    · have hsmall : newWalSegmentNo w lsn < w.xLogSegmentsPerXLogID := by
        rw [newWalSegmentNo, Nat.div_lt_iff_lt_mul (walSegmentSize_pos w), Nat.mul_comm,
          walSegmentSize_mul_xLogSegmentsPerXLogID]
        exact hlt
      have hsmall' := hsmall.trans_le (xLogSegmentsPerXLogID_le w)
      rw [Nat.div_eq_of_lt hsmall, Nat.div_eq_of_lt hsmall', Nat.mod_eq_of_lt hsmall, Nat.mod_eq_of_lt hsmall']
      exact ⟨rfl, rfl⟩
    · have hper : w.xLogSegmentsPerXLogID = 2 ^ 32 := by
        rw [WalSize.xLogSegmentsPerXLogID, WalSize.walSegmentSize, hexponent]
        rfl
      rw [hper]
      exact ⟨rfl, rfl⟩

theorem segmentPart_eq_filename_iff : bb.segmentPart w = (bb.startSegment w).filename ↔
    bb.startLSN.toNat < 2 ^ 32 ∨ w.exponent = 0 := by
  have hnumber : (bb.startSegment w).no < 2 ^ 32 * 2 ^ 32 :=
    (Nat.div_le_self _ _).trans_lt (bb.startLSN.toNat_lt.trans_le (by norm_num))
  have hhigh : (bb.startSegment w).no / 2 ^ 32 < 16 ^ 8 := Nat.div_lt_of_lt_mul hnumber
  have hlow : (bb.startSegment w).no % 2 ^ 32 < 16 ^ 8 := Nat.mod_lt _ (by decide)
  rw [segmentPart_eq, WalSegment.filename_eq, ← split_eq_iff]
  constructor
  · intro heq
    obtain ⟨hdiv, hmod⟩ := List.append_inj (List.append_cancel_left heq) (by simp only [hexFixed_length])
    exact ⟨hexFixed_injective hhigh (bb.startSegment w).no_lt hdiv,
      hexFixed_injective hlow (bb.startSegment w).low_lt hmod⟩
  · rintro ⟨hdiv, hmod⟩
    change hexFixed 8 _ ++
      (hexFixed 8 (newWalSegmentNo w _ / 2 ^ 32) ++ hexFixed 8 (newWalSegmentNo w _ % 2 ^ 32)) = _
    rw [hdiv, hmod]
    rfl

end StreamingBaseBackup

/-- The name of a streaming backup is the name of its first segment, and is parsed back, exactly if the
backup starts within the first XLog id. -/
theorem backupName_parsed_iff (w : WalSize) (bb : StreamingBaseBackup) :
    (parseWALFilename w (bb.segmentPart w) = some (bb.timeLine.toNat, newWalSegmentNo w bb.startLSN.toNat) ∧
      bb.segmentPart w = formatWALFileName w bb.timeLine.toNat (newWalSegmentNo w bb.startLSN.toNat)) ↔
    bb.startLSN.toNat < 2 ^ 32 ∨ w.exponent = 0 := by
  rw [← StreamingBaseBackup.segmentPart_eq_filename_iff]
  constructor
  · exact fun h => h.2
  · intro heq
    rw [heq]
    exact ⟨(bb.startSegment w).parseWALFilename_filename, rfl⟩

/-- The first segment of the second XLog id, with segments of sixteen megabytes. -/
theorem backupName_rejected_secondXLogID :
    (StreamingBaseBackup.mk 1 0x100000000).backupName .default = "base_000000010000000000000100".toList ∧
      parseWALFilename .default ((StreamingBaseBackup.mk 1 0x100000000).segmentPart .default) = none ∧
      formatWALFileName .default 1 (newWalSegmentNo .default 0x100000000) = "000000010000000100000000".toList := by
  decide +kernel

end WalG.Tarball
