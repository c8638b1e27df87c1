import WalG.XLog.SegmentStream

/-! # Segments that end with a switch

A server that is told to switch the segment leaves the rest of it empty.
-/
namespace WalG.XLog
open Foundation List

/-- What records take on a page. -/
def alignedLength (records : List RawRecord) : ℕ := (records.map fun raw => alignUp raw.data.length).sum

/-- The records of a segment that is left on its first page. -/
structure ShortSegment where
  records : List RawRecord
  switch : RawRecord
  not_switch : ∀ raw ∈ records, raw.record.isWALSwitch = false
  isWALSwitch : switch.record.isWALSwitch = true
  fits : alignedLength (records ++ [switch]) ≤ walPageSize - 40

namespace ShortSegment

variable (short : ShortSegment)

def all : List RawRecord := short.records ++ [short.switch]

end ShortSegment

theorem RawRecord.length_pos (raw : RawRecord) : 0 < raw.data.length :=
  lt_of_lt_of_le (by decide) raw.headerSize_le

theorem fillRecords_switched {records : List RawRecord} {switch : RawRecord}
    (hrecords : ∀ raw ∈ records, raw.record.isWALSwitch = false) (hswitch : switch.record.isWALSwitch = true)
    {capacity : ℕ} (hfits : alignedLength (records ++ [switch]) ≤ capacity) (queue : List RawRecord) :
    (fillRecords (records ++ switch :: queue) capacity).completed = records ++ [switch] ∧
      (fillRecords (records ++ switch :: queue) capacity).carry = .idle ∧
      (fillRecords (records ++ switch :: queue) capacity).queue = queue := by
  induction records generalizing capacity with
  | nil =>
    have hle := le_alignUp switch.data.length
    have hpos := switch.length_pos
    have hcapacity : alignUp switch.data.length ≤ capacity := by simpa [alignedLength] using hfits
    rw [nil_append, fillRecords, dif_neg (by omega), dif_neg (by omega), Filled.finish, if_pos hswitch]
    exact ⟨rfl, rfl, rfl⟩
  | cons raw records ih =>
    obtain ⟨hraw, hrecords⟩ := forall_mem_cons.mp hrecords
    have hle := le_alignUp raw.data.length
    have hpos := raw.length_pos
    have hcapacity : alignUp raw.data.length + alignedLength (records ++ [switch]) ≤ capacity := by
      simpa [alignedLength] using hfits
    obtain ⟨hcompleted, hcarry, hqueue⟩ := ih hrecords
      (show alignedLength (records ++ [switch]) ≤ capacity - alignUp raw.data.length by omega)
    rw [cons_append, fillRecords, dif_neg (by omega), dif_neg (by omega), Filled.finish, hraw,
      if_neg Bool.false_ne_true]
    exact ⟨congrArg (raw :: ·) hcompleted, hcarry, hqueue⟩

namespace WalStream

/-- From some segment on, segments of one page that end with a switch. -/
def ofShortSegments (frame : PageFrame) (first : ℕ) (shorts : List ShortSegment) : WalStream where
  frames n := if n < first then [] else [frame]
  carry := .boundary
  queue := shorts.flatMap ShortSegment.all

variable (frame : PageFrame) (first : ℕ) (shorts : List ShortSegment)

theorem before_ofShortSegments_of_le {n : ℕ} (h : n ≤ first) :
    (ofShortSegments frame first shorts).before n = (.boundary, shorts.flatMap ShortSegment.all) := by
  induction n with
  | zero => rfl
  | succ n ih =>
    rw [before, ih (by omega), show (ofShortSegments frame first shorts).frames n = [] from if_pos (by omega)]
    rfl

theorem writePages_short (short : ShortSegment) (queue : List RawRecord) :
    (writePages [frame] .boundary (short.all ++ queue)).completed = short.all ∧
      (writePages [frame] .boundary (short.all ++ queue)).carry = .idle ∧
      (writePages [frame] .boundary (short.all ++ queue)).queue = queue := by
  have hcapacity : walPageSize - 40 ≤ frame.capacity := by
    unfold PageFrame.capacity PageFrame.headerSize
    split_ifs <;> decide
  have hfill := fillRecords_switched short.not_switch short.isWALSwitch (short.fits.trans hcapacity) queue
  rw [ShortSegment.all, append_assoc, singleton_append]
  refine ⟨?_, hfill.2⟩
  rw [show (writePages [frame] .boundary (short.records ++ short.switch :: queue)).completed =
    (fillRecords (short.records ++ short.switch :: queue) frame.capacity).completed ++ [] from rfl, append_nil]
  exact hfill.1

theorem before_ofShortSegments {i : ℕ} (h : i ≤ shorts.length) :
    (ofShortSegments frame first shorts).before (first + i) =
      (.boundary, (shorts.drop i).flatMap ShortSegment.all) := by
  induction i with
  | zero => exact before_ofShortSegments_of_le frame first shorts le_rfl
  | succ i ih =>
    rw [← Nat.add_assoc, before, ih (by omega),
      show (ofShortSegments frame first shorts).frames (first + i) = [frame] from if_neg (by omega),
      drop_eq_getElem_cons (show i < shorts.length by omega), flatMap_cons]
    obtain ⟨-, hcarry, hqueue⟩ := writePages_short frame shorts[i] ((shorts.drop (i + 1)).flatMap ShortSegment.all)
    rw [hcarry, hqueue]
    rfl

/-- No record crosses a border, and each segment has its own records. -/
theorem segment_ofShortSegments {i : ℕ} (h : i < shorts.length) :
    (ofShortSegments frame first shorts).crossing (first + i) = .boundary ∧
      ((ofShortSegments frame first shorts).segment (first + i)).completed = shorts[i].all := by
  have hbefore := before_ofShortSegments frame first shorts h.le
  refine ⟨congrArg Prod.fst hbefore, ?_⟩
  rw [segment, hbefore, show (ofShortSegments frame first shorts).frames (first + i) = [frame] from if_neg (by omega),
    drop_eq_getElem_cons h, flatMap_cons]
  exact (writePages_short frame shorts[i] _).1

end WalStream

end WalG.XLog
