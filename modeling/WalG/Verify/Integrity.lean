import WalG.Verify.Scanner
import WalG.Wal.SegmentName
import WalG.Foundation.SliceSort

/-! # The report of the integrity check

The scanned segments are sorted and collapsed into sequences of one timeline and status.
-/
namespace WalG.Verify
open Foundation List

structure WalSegmentsSequence where
  timelineID : UInt32
  walSegmentNumbers : List UInt64
  minSegmentNo : UInt64
  maxSegmentNo : UInt64
  deriving DecidableEq, Repr

def newSegmentsSequence (id : UInt32) (segmentNo : UInt64) : WalSegmentsSequence :=
  ⟨id, [segmentNo], segmentNo, segmentNo⟩

def WalSegmentsSequence.addWalSegmentNo (seq : WalSegmentsSequence) (number : UInt64) : WalSegmentsSequence where
  timelineID := seq.timelineID
  walSegmentNumbers := seq.walSegmentNumbers.insert number
  minSegmentNo := if number < seq.minSegmentNo then number else seq.minSegmentNo
  maxSegmentNo := if seq.maxSegmentNo < number then number else seq.maxSegmentNo

structure IntegrityScanSegmentSequence where
  timelineID : UInt32
  startSegment : Text
  endSegment : Text
  segmentsCount : ℕ
  status : ScannedSegmentStatus
  deriving DecidableEq, Repr

def getFilename (w : Wal.WalSize) (walSegmentNo : UInt64) (timeline : UInt32) : Text :=
  Wal.formatWALFileName w timeline.toNat walSegmentNo.toNat

def newIntegrityScanSegmentSequence (w : Wal.WalSize) (sequence : WalSegmentsSequence)
    (status : ScannedSegmentStatus) : IntegrityScanSegmentSequence where
  timelineID := sequence.timelineID
  startSegment := getFilename w sequence.minSegmentNo sequence.timelineID
  endSegment := getFilename w sequence.maxSegmentNo sequence.timelineID
  segmentsCount := sequence.walSegmentNumbers.length
  status := status

/-- The loop over the sorted segments, from the current sequence on. -/
def collapseFrom (w : Wal.WalSize) (currentSequence : WalSegmentsSequence) (currentStatus : ScannedSegmentStatus) :
    List ScannedSegmentDescription → List IntegrityScanSegmentSequence
  | [] => [newIntegrityScanSegmentSequence w currentSequence currentStatus]
  | scanned :: rest =>
    if scanned.status ≠ currentStatus ∨ currentSequence.timelineID ≠ scanned.segment.timeline then
      newIntegrityScanSegmentSequence w currentSequence currentStatus ::
        collapseFrom w (newSegmentsSequence scanned.segment.timeline scanned.segment.number) scanned.status rest
    else collapseFrom w (currentSequence.addWalSegmentNo scanned.segment.number) currentStatus rest

def numberLess (a b : ScannedSegmentDescription) : Bool := decide (a.segment.number < b.segment.number)

def collapseSegmentsByStatusAndTimeline (w : Wal.WalSize) (slice : SliceSort ScannedSegmentDescription)
    (scannedSegments : List ScannedSegmentDescription) : List IntegrityScanSegmentSequence :=
  match slice.sort numberLess scannedSegments with
  | [] => []
  | first :: rest =>
    collapseFrom w (newSegmentsSequence first.segment.timeline first.segment.number) first.status rest

inductive CheckStatus where
  | ok
  | warning
  | failure
  deriving DecidableEq, Repr

/-- The status after the rows seen so far; a lost row ends the loop. -/
def checkStatusFrom (status : CheckStatus) : List IntegrityScanSegmentSequence → CheckStatus
  | [] => status
  | row :: rows =>
    match row.status with
    | .lost => .failure
    | .probablyDelayed | .probablyUploading => checkStatusFrom .warning rows
    | .found => checkStatusFrom status rows

structure WalVerifyCheckResult where
  status : CheckStatus
  details : List IntegrityScanSegmentSequence

def newWalIntegrityCheckResult (segmentSequences : List IntegrityScanSegmentSequence) : WalVerifyCheckResult :=
  ⟨checkStatusFrom .ok segmentSequences, segmentSequences⟩

def IntegrityCheckRunner.run (w : Wal.WalSize) (slice : SliceSort ScannedSegmentDescription)
    (check : IntegrityCheckRunner) : WalVerifyCheckResult :=
  newWalIntegrityCheckResult (collapseSegmentsByStatusAndTimeline w slice check.scannedSegments)

section Result

theorem checkStatusFrom_failure_iff (status : CheckStatus) (hstatus : status ≠ .failure)
    (rows : List IntegrityScanSegmentSequence) :
    checkStatusFrom status rows = .failure ↔ ∃ row ∈ rows, row.status = .lost := by
  induction rows generalizing status with
  | nil => simp [checkStatusFrom, hstatus]
  | cons row rows ih =>
    rw [checkStatusFrom, exists_mem_cons_iff]
    cases hrow : row.status with
    | lost => simp
    | probablyUploading => simp [ih .warning nofun]
    | probablyDelayed => simp [ih .warning nofun]
    | found => simp [ih status hstatus]

theorem checkStatusFrom_ok_iff (status : CheckStatus) (rows : List IntegrityScanSegmentSequence) :
    checkStatusFrom status rows = .ok ↔ status = .ok ∧ ∀ row ∈ rows, row.status = .found := by
  induction rows generalizing status with
  | nil => simp [checkStatusFrom]
  | cons row rows ih =>
    rw [checkStatusFrom, forall_mem_cons]
    cases hrow : row.status with
    | lost => simp
    | probablyUploading => simp [ih]
    | probablyDelayed => simp [ih]
    | found => simp [ih]

end Result

/-- A row of the report describes a run of segments: their common timeline and status,
the names of the first and the last one, and how many they are. -/
structure Describes (w : Wal.WalSize) (run : List ScannedSegmentDescription) (row : IntegrityScanSegmentSequence) :
    Prop where
  same : ∀ s ∈ run, s.segment.timeline = row.timelineID ∧ s.status = row.status
  count : row.segmentsCount = run.length
  borders : ∃ first last, run.head? = some first ∧ run.getLast? = some last ∧
    row.startSegment = getFilename w first.segment.number row.timelineID ∧
    row.endSegment = getFilename w last.segment.number row.timelineID

/-- Two neighbouring runs could not be one: they differ in the timeline or the status. -/
def Differ (run run' : List ScannedSegmentDescription) : Prop :=
  ∀ s ∈ run, ∀ t ∈ run', s.segment.timeline ≠ t.segment.timeline ∨ s.status ≠ t.status

/-- The current sequence of the loop stands for the run of segments added to it. -/
structure Represents (run : List ScannedSegmentDescription) (first last : ScannedSegmentDescription)
    (seq : WalSegmentsSequence) (status : ScannedSegmentStatus) : Prop where
  head : run.head? = some first
  getLast : run.getLast? = some last
  same : ∀ s ∈ run, s.segment.timeline = seq.timelineID ∧ s.status = status
  minSegmentNo : seq.minSegmentNo = first.segment.number
  maxSegmentNo : seq.maxSegmentNo = last.segment.number
  first_le : first.segment.number ≤ last.segment.number
  le_last : ∀ number ∈ seq.walSegmentNumbers, number ≤ last.segment.number
  count : seq.walSegmentNumbers.length = run.length

theorem represents_new (s : ScannedSegmentDescription) :
    Represents [s] s s (newSegmentsSequence s.segment.timeline s.segment.number) s.status where
  head := rfl
  getLast := rfl
  same t ht := by rw [mem_singleton.mp ht]; exact ⟨rfl, rfl⟩
  minSegmentNo := rfl
  maxSegmentNo := rfl
  first_le := UInt64.le_refl _
  le_last number h := by rw [mem_singleton.mp h]; exact UInt64.le_refl _
  count := rfl

section Loop

variable {run : List ScannedSegmentDescription} {first last : ScannedSegmentDescription}
  {seq : WalSegmentsSequence} {status : ScannedSegmentStatus} (h : Represents run first last seq status)

include h

theorem Represents.add {s : ScannedSegmentDescription} (hlt : last.segment.number < s.segment.number)
    (htimeline : s.segment.timeline = seq.timelineID) (hstatus : s.status = status) :
    Represents (run ++ [s]) first s (seq.addWalSegmentNo s.segment.number) status where
  head := by rw [head?_append, h.head, Option.some_or]
  getLast := getLast?_concat
  same t ht := by
    rcases mem_append.mp ht with ht | ht
    · exact h.same t ht
    · rw [mem_singleton.mp ht]
      exact ⟨htimeline, hstatus⟩
  minSegmentNo := by
    rw [WalSegmentsSequence.addWalSegmentNo, h.minSegmentNo]
    exact if_neg (UInt64.not_lt.mpr (UInt64.le_trans h.first_le (UInt64.le_of_lt hlt)))
  maxSegmentNo := by
    rw [WalSegmentsSequence.addWalSegmentNo, h.maxSegmentNo]
    exact if_pos hlt
  first_le := UInt64.le_trans h.first_le (UInt64.le_of_lt hlt)
  le_last number hnumber := by
    rcases mem_insert_iff.mp hnumber with rfl | hnumber
    · exact UInt64.le_refl _
    · exact UInt64.le_trans (h.le_last number hnumber) (UInt64.le_of_lt hlt)
  count := by
    have hnew : s.segment.number ∉ seq.walSegmentNumbers := fun hmem =>
      absurd hlt (UInt64.not_lt.mpr (h.le_last _ hmem))
    rw [WalSegmentsSequence.addWalSegmentNo, length_insert_of_not_mem hnew, h.count, length_append]
    rfl

theorem Represents.describes (w : Wal.WalSize) : Describes w run (newIntegrityScanSegmentSequence w seq status) where
  same := h.same
  count := h.count
  borders := ⟨first, last, h.head, h.getLast, by rw [newIntegrityScanSegmentSequence, h.minSegmentNo],
    by rw [newIntegrityScanSegmentSequence, h.maxSegmentNo]⟩

/-- The rest of the loop extends the current run and cuts what follows into maximal runs. -/
theorem collapseFrom_runs (w : Wal.WalSize) (rest : List ScannedSegmentDescription)
    (hsorted : (last :: rest).Pairwise fun s t => s.segment.number < t.segment.number) :
    ∃ run' runs, (run' :: runs).flatten = run ++ rest ∧
      Forall₂ (Describes w) (run' :: runs) (collapseFrom w seq status rest) ∧
      (run' :: runs).IsChain Differ ∧
      ∀ s ∈ run', s.segment.timeline = seq.timelineID ∧ s.status = status := by
  induction rest generalizing run first last seq status with
  | nil =>
    refine ⟨run, [], by simp, ?_, isChain_singleton run, h.same⟩
    exact .cons (h.describes w) .nil
  | cons s rest ih =>
    have htail : (s :: rest).Pairwise fun s t => s.segment.number < t.segment.number := hsorted.tail
    have hlt := (pairwise_cons.mp hsorted).1 s mem_cons_self
    rw [collapseFrom]
    split_ifs with hnew
    · obtain ⟨run', runs, hflat, hdesc, hchain, hsame⟩ := ih (represents_new s) htail
      refine ⟨run, run' :: runs, ?_, .cons (h.describes w) hdesc, ?_, h.same⟩
      · rw [flatten_cons, hflat, singleton_append]
      · refine isChain_cons_cons.mpr ⟨?_, hchain⟩
        intro a ha b hb
        rw [(h.same a ha).1, (h.same a ha).2, (hsame b hb).1, (hsame b hb).2]
        rcases hnew with hstatus | htimeline
        · exact .inr hstatus.symm
        · exact .inl htimeline
    · rw [not_or, not_not, not_not] at hnew
      obtain ⟨run', runs, hflat, hrest⟩ := ih (h.add hlt hnew.2.symm hnew.1) htail
      exact ⟨run', runs, by rw [hflat, append_assoc, singleton_append], hrest⟩

end Loop

/-- Segments that come in ascending order when reversed are sorted by reversing them. -/
theorem sort_eq_reverse (slice : SliceSort ScannedSegmentDescription) {scanned : List ScannedSegmentDescription}
    (h : scanned.reverse.Pairwise fun s t => s.segment.number < t.segment.number) :
    slice.sort numberLess scanned = scanned.reverse := by
  have hkey : ∀ a ∈ scanned, ∀ b ∈ scanned,
      numberLess a b = decide (a.segment.number.toNat < b.segment.number.toNat) := fun a _ b _ => by
    simp only [numberLess, UInt64.lt_iff_toNat_lt]
  have hnat : scanned.reverse.Pairwise fun s t => s.segment.number.toNat < t.segment.number.toNat :=
    h.imp fun hlt => UInt64.lt_iff_toNat_lt.mp hlt
  exact slice.sort_eq_of_pairwise hkey (reverse_perm scanned).symm hnat

theorem collapse_runs (w : Wal.WalSize) (slice : SliceSort ScannedSegmentDescription)
    {scanned : List ScannedSegmentDescription}
    (h : scanned.reverse.Pairwise fun s t => s.segment.number < t.segment.number) :
    ∃ runs, runs.flatten = scanned.reverse ∧
      Forall₂ (Describes w) runs (collapseSegmentsByStatusAndTimeline w slice scanned) ∧
      runs.IsChain Differ := by
  rw [collapseSegmentsByStatusAndTimeline, sort_eq_reverse slice h]
  cases hrev : scanned.reverse with
  | nil => exact ⟨[], rfl, .nil, isChain_nil⟩
  | cons first rest =>
    rw [hrev] at h
    obtain ⟨run', runs, hflat, hdesc, hchain, -⟩ := collapseFrom_runs (represents_new first) w rest h
    exact ⟨run' :: runs, hflat, hdesc, hchain⟩

/-- A status occurs in the rows exactly if it occurs in the segments they describe. -/
theorem exists_status_iff {w : Wal.WalSize} {runs : List (List ScannedSegmentDescription)}
    {rows : List IntegrityScanSegmentSequence} (h : Forall₂ (Describes w) runs rows)
    (p : ScannedSegmentStatus → Prop) : (∃ row ∈ rows, p row.status) ↔ ∃ s ∈ runs.flatten, p s.status := by
  induction h with
  | nil => simp
  | cons hrow _ ih =>
    obtain ⟨first, last, hfirst, -⟩ := hrow.borders
    have hmem := mem_of_mem_head? hfirst
    rw [exists_mem_cons_iff, ih, flatten_cons]
    simp only [mem_append, or_and_right, exists_or]
    apply or_congr_left
    constructor
    · intro hp
      exact ⟨first, hmem, (hrow.same first hmem).2.symm ▸ hp⟩
    · rintro ⟨s, hs, hp⟩
      exact (hrow.same s hs).2 ▸ hp

namespace IntegrityCheckRunner

variable (check : IntegrityCheckRunner)

theorem scannedSegments_numbers : check.scannedSegments.map (fun s => s.segment.number.toNat) =
      (range' check.stopWalSegmentNo.toNat check.distance).reverse := by
  rw [scannedSegments_eq, map_map, reverse_range']
  apply map_congr_left
  intro k hk
  rw [mem_range, distance] at hk
  rw [Function.comp_apply, check.position_number (by omega), distance]
  omega

theorem scannedSegments_ascending :
    check.scannedSegments.reverse.Pairwise fun s t => s.segment.number < t.segment.number := by
  have hmap : (check.scannedSegments.reverse.map fun s => s.segment.number.toNat).Pairwise (· < ·) := by
    rw [map_reverse, scannedSegments_numbers, reverse_reverse]
    exact pairwise_lt_range'
  exact (pairwise_map.mp hmap).imp fun hlt => UInt64.lt_iff_toNat_lt.mpr hlt

theorem found_iff_stored {s : ScannedSegmentDescription} (h : s ∈ check.scannedSegments) :
    s.status = .found ↔ s.segment ∈ check.walFolderSegments := by
  rw [scannedSegments_eq, mem_map] at h
  obtain ⟨k, -, rfl⟩ := h
  have hstored : check.stored k = true ↔ check.position (k + 1) ∈ check.walFolderSegments := decide_eq_true_iff
  simp only [statusAt]
  split_ifs <;> simp_all

/-- The report of a check is exact. The numbers from below the start down to the stop are
scanned once each, found exactly if they are stored and otherwise marked by their phase.
The rows describe the maximal runs of one timeline and status. The result is in order
exactly if nothing is missing and a failure exactly if a segment is lost. -/
theorem run_exact (w : Wal.WalSize) (slice : SliceSort ScannedSegmentDescription) :
    check.scannedSegments.map (fun s => s.segment.number.toNat) =
      (range' check.stopWalSegmentNo.toNat check.distance).reverse ∧
    check.scannedSegments =
      (range check.distance).map (fun k => ⟨check.position (k + 1), check.statusAt k⟩) ∧
    (∀ s ∈ check.scannedSegments, s.status = .found ↔ s.segment ∈ check.walFolderSegments) ∧
    (∃ runs, runs.flatten = check.scannedSegments.reverse ∧
      Forall₂ (Describes w) runs (check.run w slice).details ∧ runs.IsChain Differ) ∧
    ((check.run w slice).status = .ok ↔ ∀ s ∈ check.scannedSegments, s.status = .found) ∧
    ((check.run w slice).status = .failure ↔ ∃ s ∈ check.scannedSegments, s.status = .lost) := by
  obtain ⟨runs, hflat, hdesc, hchain⟩ := collapse_runs w slice check.scannedSegments_ascending
  have hstatus : ∀ p : ScannedSegmentStatus → Prop,
      (∃ row ∈ (check.run w slice).details, p row.status) ↔ ∃ s ∈ check.scannedSegments, p s.status := by
    intro p
    have hiff := exists_status_iff hdesc p
    simp only [hflat, mem_reverse] at hiff
    exact hiff
  refine ⟨check.scannedSegments_numbers, check.scannedSegments_eq, fun s hs => check.found_iff_stored hs,
    ⟨runs, hflat, hdesc, hchain⟩, ?_, ?_⟩
  · have hmissing := hstatus fun status => status ≠ .found
    change checkStatusFrom .ok _ = .ok ↔ _
    rw [checkStatusFrom_ok_iff]
    constructor
    · rintro ⟨-, hrows⟩ s hs
      by_contra hne
      obtain ⟨row, hrow, hbad⟩ := hmissing.mpr ⟨s, hs, hne⟩
      exact hbad (hrows row hrow)
    · intro hall
      refine ⟨rfl, fun row hrow => ?_⟩
      by_contra hne
      obtain ⟨s, hs, hbad⟩ := hmissing.mp ⟨row, hrow, hne⟩
      exact hbad (hall s hs)
  · change checkStatusFrom .ok _ = .failure ↔ _
    rw [checkStatusFrom_failure_iff .ok nofun]
    exact hstatus fun status => status = .lost

end IntegrityCheckRunner

end WalG.Verify
