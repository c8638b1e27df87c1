import WalG.Wal.SegmentName

/-! # The history of a timeline

The history lists the timelines a timeline descends from, with the positions at which they ended.
-/
namespace WalG.Verify
open List

/-- A timeline and the position at which it ended. -/
structure TimelineHistoryRecord where
  timeline : UInt32
  lsn : UInt64
  deriving DecidableEq, Repr

/-- The number of the segment that holds a position. -/
def segmentNoOf (w : Wal.WalSize) (lsn : UInt64) : UInt64 := .ofNat (Wal.newWalSegmentNo w lsn.toNat)

def TimelineHistoryRecord.switchSegmentNo (w : Wal.WalSize) (record : TimelineHistoryRecord) : UInt64 :=
  segmentNoOf w record.lsn

/-- A timeline with the timelines it descends from: they are numbered upwards, and each of them
ended at or after the end of the one before. -/
structure History where
  records : List TimelineHistoryRecord
  current : UInt32
  sorted : records.Pairwise fun r s => r.timeline < s.timeline ∧ r.lsn ≤ s.lsn
  lt_current : ∀ r ∈ records, r.timeline < current

/-- The timelines with the segments in which they began, the first one in segment `start`. -/
def beginningsFrom (w : Wal.WalSize) (current : UInt32) : UInt64 → List TimelineHistoryRecord → List (UInt32 × UInt64)
  | start, [] => [(current, start)]
  | start, r :: records => (r.timeline, start) :: beginningsFrom w current (r.switchSegmentNo w) records

def History.beginnings (history : History) (w : Wal.WalSize) : List (UInt32 × UInt64) :=
  beginningsFrom w history.current 0 history.records

/-- The newest timeline that began in or before a segment owns it. -/
def History.Owns (history : History) (w : Wal.WalSize) (timeline : UInt32) (number : UInt64) : Prop :=
  (∃ start ≤ number, (timeline, start) ∈ history.beginnings w) ∧
    ∀ other ∈ history.beginnings w, other.2 ≤ number → other.1 ≤ timeline

/-- No two switches above the stop number lie in one segment. -/
def History.SwitchesApart (history : History) (w : Wal.WalSize) (stopSegmentNo : UInt64) : Prop :=
  ∀ r ∈ history.records, ∀ s ∈ history.records, r.timeline < s.timeline →
    r.switchSegmentNo w = s.switchSegmentNo w → r.switchSegmentNo w ≤ stopSegmentNo

instance (history : History) (w : Wal.WalSize) (stopSegmentNo : UInt64) :
    Decidable (history.SwitchesApart w stopSegmentNo) :=
  inferInstanceAs (Decidable (∀ r ∈ history.records, ∀ s ∈ history.records, r.timeline < s.timeline →
    r.switchSegmentNo w = s.switchSegmentNo w → r.switchSegmentNo w ≤ stopSegmentNo))

theorem toNat_segmentNoOf (w : Wal.WalSize) (lsn : UInt64) :
    (segmentNoOf w lsn).toNat = Wal.newWalSegmentNo w lsn.toNat :=
  UInt64.toNat_ofNat_of_lt' ((Nat.div_le_self _ _).trans_lt lsn.toNat_lt)

theorem segmentNoOf_mono (w : Wal.WalSize) {a b : UInt64} (h : a ≤ b) : segmentNoOf w a ≤ segmentNoOf w b := by
  rw [UInt64.le_iff_toNat_le, toNat_segmentNoOf, toNat_segmentNoOf]
  exact Nat.div_le_div_right (UInt64.le_iff_toNat_le.mp h)

section Beginnings

variable {w : Wal.WalSize} {current : UInt32} {start : UInt64} {records : List TimelineHistoryRecord}
  {r : TimelineHistoryRecord} {timeline : UInt32} {first : UInt64}

theorem exists_beginning (h : r ∈ records) : ∃ first, (r.timeline, first) ∈ beginningsFrom w current start records := by
  induction records generalizing start with
  | nil => cases h
  | cons s records ih =>
    rcases mem_cons.mp h with rfl | h
    · exact ⟨start, mem_cons_self⟩
    · exact (ih h).imp fun _ => mem_cons_of_mem _

theorem exists_beginning_current : ∃ first, (current, first) ∈ beginningsFrom w current start records := by
  induction records generalizing start with
  | nil => exact ⟨start, mem_singleton_self _⟩
  | cons s records ih => exact ih.imp fun _ => mem_cons_of_mem _

theorem timeline_of_mem_beginningsFrom (h : (timeline, first) ∈ beginningsFrom w current start records) :
    timeline = current ∨ ∃ r ∈ records, r.timeline = timeline := by
  induction records generalizing start with
  | nil => exact .inl (Prod.mk.inj (mem_singleton.mp h)).1
  | cons s records ih =>
    rcases mem_cons.mp h with h | h
    · exact .inr ⟨s, mem_cons_self, (Prod.mk.inj h).1.symm⟩
    · refine (ih h).imp_right ?_
      rintro ⟨r, hr, htimeline⟩
      exact ⟨r, mem_cons_of_mem _ hr, htimeline⟩

variable (hsorted : records.Pairwise fun r s => r.timeline < s.timeline ∧ r.lsn ≤ s.lsn)
  (hcurrent : ∀ r ∈ records, r.timeline < current)

include hsorted hcurrent

/-- A timeline other than the first one begins where an earlier one ended. -/
theorem mem_beginningsFrom (h : (timeline, first) ∈ beginningsFrom w current start records) :
    first = start ∨ ∃ r ∈ records, r.timeline < timeline ∧ r.switchSegmentNo w = first := by
  induction records generalizing start with
  | nil => exact .inl (Prod.mk.inj (mem_singleton.mp h)).2
  | cons s records ih =>
    obtain ⟨hs, htail⟩ := pairwise_cons.mp hsorted
    obtain ⟨hscurrent, htailCurrent⟩ := forall_mem_cons.mp hcurrent
    rcases mem_cons.mp h with h | h
    · exact .inl (Prod.mk.inj h).2
    · right
      rcases ih htail htailCurrent h with rfl | ⟨r, hr, hlt, rfl⟩
      · refine ⟨s, mem_cons_self, ?_, rfl⟩
        rcases timeline_of_mem_beginningsFrom h with rfl | ⟨r, hr, rfl⟩
        · exact hscurrent
        · exact (hs r hr).1
      · exact ⟨r, mem_cons_of_mem _ hr, hlt, rfl⟩

/-- A timeline begins at or after the end of every earlier one. -/
theorem switchSegmentNo_le_of_lt (hr : r ∈ records) (h : (timeline, first) ∈ beginningsFrom w current start records)
    (hlt : r.timeline < timeline) : r.switchSegmentNo w ≤ first := by
  induction records generalizing start with
  | nil => cases hr
  | cons s records ih =>
    obtain ⟨hs, htail⟩ := pairwise_cons.mp hsorted
    obtain ⟨hscurrent, htailCurrent⟩ := forall_mem_cons.mp hcurrent
    rcases mem_cons.mp h with h | h
    · cases h
      rcases mem_cons.mp hr with rfl | hr
      · exact absurd hlt (UInt32.lt_irrefl _)
      · exact absurd (hs r hr).1 (UInt32.not_lt.mpr (UInt32.le_of_lt hlt))
    · rcases mem_cons.mp hr with rfl | hr
      · rcases mem_beginningsFrom htail htailCurrent h with rfl | ⟨r', hr', -, rfl⟩
        · exact UInt64.le_refl _
        · exact segmentNoOf_mono w (hs r' hr').2
      · exact ih htail htailCurrent hr h

end Beginnings

namespace History

variable {w : Wal.WalSize} {history : History} {timeline : UInt32} {number below first : UInt64}
  {record r s : TimelineHistoryRecord}

theorem mem_beginnings (h : (timeline, first) ∈ history.beginnings w) :
    first = 0 ∨ ∃ r ∈ history.records, r.timeline < timeline ∧ r.switchSegmentNo w = first :=
  mem_beginningsFrom history.sorted history.lt_current h

theorem switchSegmentNo_le_beginning (hr : r ∈ history.records) (h : (timeline, first) ∈ history.beginnings w)
    (hlt : r.timeline < timeline) : r.switchSegmentNo w ≤ first :=
  switchSegmentNo_le_of_lt history.sorted history.lt_current hr h hlt

theorem le_current (h : (timeline, first) ∈ history.beginnings w) : timeline ≤ history.current := by
  rcases timeline_of_mem_beginningsFrom h with rfl | ⟨r, hr, rfl⟩
  · exact UInt32.le_refl _
  · exact UInt32.le_of_lt (history.lt_current r hr)

theorem eq_or_ended_before (hr : r ∈ history.records) (hs : s ∈ history.records) (hle : r.timeline ≤ s.timeline) :
    r = s ∨ r.timeline < s.timeline ∧ r.lsn ≤ s.lsn := by
  obtain ⟨before, after, hrecords⟩ := append_of_mem hs
  have hsorted := history.sorted
  rw [hrecords] at hsorted hr
  obtain ⟨-, hafter, hbefore⟩ := pairwise_append.mp hsorted
  rcases mem_append.mp hr with hr | hr
  · exact .inr (hbefore r hr s mem_cons_self)
  · rcases mem_cons.mp hr with rfl | hr
    · exact .inl rfl
    · exact absurd ((pairwise_cons.mp hafter).1 r hr).1 (UInt32.not_lt.mpr hle)

theorem switchSegmentNo_mono (hr : r ∈ history.records) (hs : s ∈ history.records) (hle : r.timeline ≤ s.timeline) :
    r.switchSegmentNo w ≤ s.switchSegmentNo w := by
  rcases eq_or_ended_before hr hs hle with rfl | ⟨-, hlsn⟩
  · exact UInt64.le_refl _
  · exact segmentNoOf_mono w hlsn

theorem le_below (hbelow : below.toNat + 1 = number.toNat) (hle : first ≤ number) (hne : first ≠ number) :
    first ≤ below := by
  rw [UInt64.le_iff_toNat_le] at hle ⊢
  have hne' : first.toNat ≠ number.toNat := fun heq => hne (UInt64.toNat_inj.mp heq)
  omega

theorem owns_current (hstart : ∀ r ∈ history.records, r.switchSegmentNo w ≤ number) :
    history.Owns w history.current number := by
  refine ⟨?_, fun other hother _ => le_current hother⟩
  obtain ⟨first, hfirst⟩ : ∃ first, (history.current, first) ∈ history.beginnings w := exists_beginning_current
  refine ⟨first, ?_, hfirst⟩
  rcases mem_beginnings hfirst with rfl | ⟨r, hr, -, rfl⟩
  · exact UInt64.zero_le
  · exact hstart r hr

theorem Owns.stays (h : history.Owns w timeline number) (hbelow : below.toNat + 1 = number.toNat)
    (hnone : ∀ r ∈ history.records, r.switchSegmentNo w ≠ number) : history.Owns w timeline below := by
  obtain ⟨⟨first, hle, hfirst⟩, hnewest⟩ := h
  have hnumber : below ≤ number := by
    rw [UInt64.le_iff_toNat_le]
    omega
  refine ⟨⟨first, ?_, hfirst⟩, fun other hother hle => hnewest other hother (UInt64.le_trans hle hnumber)⟩
  rcases mem_beginnings hfirst with rfl | ⟨r, hr, -, rfl⟩
  · exact UInt64.zero_le
  · exact le_below hbelow hle (hnone r hr)

/-- Below the only switch of a segment the timeline is the one that ended there. -/
theorem owns_below_switch (hrecord : record ∈ history.records)
    (hbelow : below.toNat + 1 = (record.switchSegmentNo w).toNat)
    (honly : ∀ r ∈ history.records, r.timeline < record.timeline →
      r.switchSegmentNo w ≠ record.switchSegmentNo w) : history.Owns w record.timeline below := by
  constructor
  · obtain ⟨first, hfirst⟩ : ∃ first, (record.timeline, first) ∈ history.beginnings w := exists_beginning hrecord
    refine ⟨first, ?_, hfirst⟩
    rcases mem_beginnings hfirst with rfl | ⟨r, hr, hlt, rfl⟩
    · exact UInt64.zero_le
    · exact le_below hbelow (switchSegmentNo_mono hr hrecord (UInt32.le_of_lt hlt)) (honly r hr hlt)
  · intro other hother hle
    refine UInt32.not_lt.mp fun hlt => ?_
    have hfirst := switchSegmentNo_le_beginning hrecord hother hlt
    rw [UInt64.le_iff_toNat_le] at hfirst hle
    omega

theorem not_owns_below (hr : r ∈ history.records) (hlt : r.timeline < timeline)
    (hbelow : below.toNat + 1 = (r.switchSegmentNo w).toNat) : ¬ history.Owns w timeline below := by
  rintro ⟨⟨first, hle, hfirst⟩, -⟩
  have hbeginning := switchSegmentNo_le_beginning hr hfirst hlt
  rw [UInt64.le_iff_toNat_le] at hbeginning hle
  omega

end History

end WalG.Verify
