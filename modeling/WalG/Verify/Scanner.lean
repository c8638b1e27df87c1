import Mathlib.Tactic

/-! # Scanning the stored segments backwards

A runner walks from a start segment down to a stop number and changes the timeline where the history
records a switch.
-/
namespace WalG.Verify
open List

structure WalSegmentDescription where
  number : UInt64
  timeline : UInt32
  deriving DecidableEq, Repr

inductive ScannedSegmentStatus where
  | lost
  | probablyUploading
  | probablyDelayed
  | found
  deriving DecidableEq, Repr

structure ScannedSegmentDescription where
  segment : WalSegmentDescription
  status : ScannedSegmentStatus
  deriving DecidableEq, Repr

/-- The timeline of the history record of a segment number. -/
abbrev TimelineSwitchMap := UInt64 → Option UInt32

structure WalSegmentRunner where
  currentWalSegment : WalSegmentDescription
  walFolderSegments : List WalSegmentDescription
  stopSegmentNo : UInt64
  timelineSwitchMap : TimelineSwitchMap

inductive RunnerError where
  | walSegmentNotFound (segment : WalSegmentDescription)
  | reachedStopSegment
  deriving DecidableEq, Repr

def previous (walSegmentNo : UInt64) : UInt64 := walSegmentNo - 1

def nextSegment (timelineSwitchMap : TimelineSwitchMap) (current : WalSegmentDescription) :
    WalSegmentDescription where
  number := previous current.number
  timeline := (timelineSwitchMap current.number).getD current.timeline

namespace WalSegmentRunner

def getNextSegment (r : WalSegmentRunner) : WalSegmentDescription :=
  nextSegment r.timelineSwitchMap r.currentWalSegment

/-- Move on without accessing the storage. -/
def forceMoveNext (r : WalSegmentRunner) : WalSegmentRunner := { r with currentWalSegment := r.getNextSegment }

def next (r : WalSegmentRunner) : Except RunnerError WalSegmentRunner :=
  if r.currentWalSegment.number ≤ r.stopSegmentNo then .error .reachedStopSegment
  else if r.getNextSegment ∈ r.walFolderSegments then .ok r.forceMoveNext
  else .error (.walSegmentNotFound r.getNextSegment)

theorem toNat_forceMoveNext {r : WalSegmentRunner} (hstop : ¬ r.currentWalSegment.number ≤ r.stopSegmentNo) :
    r.forceMoveNext.currentWalSegment.number.toNat + 1 = r.currentWalSegment.number.toNat := by
  rw [UInt64.le_iff_toNat_le, not_le] at hstop
  have hone : (1 : UInt64) ≤ r.currentWalSegment.number := by
    rw [UInt64.le_iff_toNat_le]
    exact Nat.succ_le_of_lt (Nat.zero_lt_of_lt hstop)
  change (r.currentWalSegment.number - 1).toNat + 1 = _
  rw [UInt64.toNat_sub_of_le _ _ hone]
  exact Nat.sub_add_cancel (Nat.succ_le_of_lt (Nat.zero_lt_of_lt hstop))

theorem forceMoveNext_lt {r : WalSegmentRunner} (h : ¬ r.currentWalSegment.number ≤ r.stopSegmentNo) :
    r.forceMoveNext.currentWalSegment.number.toNat < r.currentWalSegment.number.toNat := by
  have hmove := toNat_forceMoveNext h
  omega

theorem next_ok {r r' : WalSegmentRunner} (h : r.next = .ok r') :
    ¬ r.currentWalSegment.number ≤ r.stopSegmentNo ∧ r.forceMoveNext = r' := by
  rw [next] at h
  split_ifs at h with hstop hstored
  exact ⟨hstop, Except.ok.inj h⟩

theorem not_stop_of_notFound {r : WalSegmentRunner} {segment : WalSegmentDescription}
    (h : r.next = .error (.walSegmentNotFound segment)) : ¬ r.currentWalSegment.number ≤ r.stopSegmentNo := by
  intro hstop
  rw [next, if_pos hstop] at h
  cases h

end WalSegmentRunner

structure SegmentScanConfig where
  unlimitedScan : Bool
  scanSegmentsLimit : ℕ
  stopOnFirstFoundSegment : Bool
  missingSegmentStatus : ScannedSegmentStatus

structure WalSegmentScanner where
  scannedSegments : List ScannedSegmentDescription
  walSegmentRunner : WalSegmentRunner

namespace WalSegmentScanner

/-- Record the runner's segment after a move. -/
def addScannedSegment (sc : WalSegmentScanner) (runner : WalSegmentRunner) (status : ScannedSegmentStatus) :
    WalSegmentScanner where
  scannedSegments := sc.scannedSegments ++ [⟨runner.currentWalSegment, status⟩]
  walSegmentRunner := runner

/-- One scan from round `i` on. It ends because every further round moves the runner. -/
def scan (config : SegmentScanConfig) (i : ℕ) (sc : WalSegmentScanner) : WalSegmentScanner :=
  if config.unlimitedScan = true ∨ i < config.scanSegmentsLimit then
    match hnext : sc.walSegmentRunner.next with
    | .error .reachedStopSegment => sc
    | .error (.walSegmentNotFound _) =>
      scan config (i + 1)
        (sc.addScannedSegment sc.walSegmentRunner.forceMoveNext config.missingSegmentStatus)
    | .ok runner =>
      if config.stopOnFirstFoundSegment then sc.addScannedSegment runner .found
      else scan config (i + 1) (sc.addScannedSegment runner .found)
  else sc
termination_by sc.walSegmentRunner.currentWalSegment.number.toNat
decreasing_by
  · exact WalSegmentRunner.forceMoveNext_lt (WalSegmentRunner.not_stop_of_notFound hnext)
  · obtain ⟨hstop, rfl⟩ := WalSegmentRunner.next_ok hnext
    exact WalSegmentRunner.forceMoveNext_lt hstop

section Rounds

variable {config : SegmentScanConfig} {i : ℕ} {sc : WalSegmentScanner}

theorem scan_of_limit (h : ¬ (config.unlimitedScan = true ∨ i < config.scanSegmentsLimit)) :
    scan config i sc = sc := by
  rw [scan, if_neg h]

theorem scan_of_stop (h : sc.walSegmentRunner.next = .error .reachedStopSegment) : scan config i sc = sc := by
  by_cases hround : config.unlimitedScan = true ∨ i < config.scanSegmentsLimit
  · rw [scan, if_pos hround]
    split <;> simp_all
  · exact scan_of_limit hround

variable (hround : config.unlimitedScan = true ∨ i < config.scanSegmentsLimit)

include hround

theorem scan_of_missing {segment : WalSegmentDescription}
    (h : sc.walSegmentRunner.next = .error (.walSegmentNotFound segment)) :
    scan config i sc = scan config (i + 1)
      (sc.addScannedSegment sc.walSegmentRunner.forceMoveNext config.missingSegmentStatus) := by
  rw [scan, if_pos hround]
  split <;> simp_all

theorem scan_of_found {runner : WalSegmentRunner} (h : sc.walSegmentRunner.next = .ok runner) :
    scan config i sc = if config.stopOnFirstFoundSegment then sc.addScannedSegment runner .found
      else scan config (i + 1) (sc.addScannedSegment runner .found) := by
  rw [scan, if_pos hround]
  split <;> simp_all

end Rounds

end WalSegmentScanner

def runWalIntegrityScan (scanner : WalSegmentScanner)
    (uploadingSegmentRangeSize delayedSegmentRangeSize : ℕ) : WalSegmentScanner :=
  let delayed := scanner.scan ⟨false, delayedSegmentRangeSize, true, .probablyDelayed⟩ 0
  let uploading := delayed.scan ⟨false, uploadingSegmentRangeSize, false, .probablyUploading⟩ 0
  uploading.scan ⟨true, 0, false, .lost⟩ 0

/-- What a check is run with; the folder is given by the segments stored in it. -/
structure IntegrityCheckRunner where
  startWalSegment : WalSegmentDescription
  stopWalSegmentNo : UInt64
  uploadingSegmentRangeSize : ℕ
  delayedSegmentRangeSize : ℕ
  walFolderSegments : List WalSegmentDescription
  timelineSwitchMap : TimelineSwitchMap

namespace IntegrityCheckRunner

variable (check : IntegrityCheckRunner) {k : ℕ} (missing : ScannedSegmentStatus)

def newWalSegmentRunner : WalSegmentRunner :=
  ⟨check.startWalSegment, check.walFolderSegments, check.stopWalSegmentNo, check.timelineSwitchMap⟩

/-- The segments scanned by a run of the check. -/
def scannedSegments : List ScannedSegmentDescription :=
  (runWalIntegrityScan ⟨[], check.newWalSegmentRunner⟩ check.uploadingSegmentRangeSize
    check.delayedSegmentRangeSize).scannedSegments

/-- The segment after `k` moves. -/
def position : ℕ → WalSegmentDescription
  | 0 => check.startWalSegment
  | k + 1 => nextSegment check.timelineSwitchMap (position k)

/-- The number of segments from below the start down to the stop number. -/
def distance : ℕ := check.startWalSegment.number.toNat - check.stopWalSegmentNo.toNat

def stored (k : ℕ) : Bool := decide (check.position (k + 1) ∈ check.walFolderSegments)

def mark (missing : ScannedSegmentStatus) (k : ℕ) : ScannedSegmentDescription :=
  ⟨check.position (k + 1), if check.stored k then .found else missing⟩

def runnerAt (k : ℕ) : WalSegmentRunner := { check.newWalSegmentRunner with currentWalSegment := check.position k }

theorem position_number (hk : k ≤ check.startWalSegment.number.toNat) :
    (check.position k).number.toNat = check.startWalSegment.number.toNat - k := by
  induction k with
  | zero => rfl
  | succ k ih =>
    have hprev := ih (by omega)
    have hone : (1 : UInt64) ≤ (check.position k).number := by
      rw [UInt64.le_iff_toNat_le, hprev]
      change 1 ≤ _
      omega
    change ((check.position k).number - 1).toNat = _
    rw [UInt64.toNat_sub_of_le _ _ hone, hprev]
    change _ - 1 = _
    omega

theorem runnerAt_next (hk : k ≤ check.distance) :
    (check.runnerAt k).next =
      if k = check.distance then .error .reachedStopSegment
      else if check.stored k then .ok (check.runnerAt (k + 1))
      else .error (.walSegmentNotFound (check.position (k + 1))) := by
  have hstop : (check.position k).number ≤ check.stopWalSegmentNo ↔ k = check.distance := by
    rw [UInt64.le_iff_toNat_le, check.position_number (hk.trans (Nat.sub_le _ _))]
    rw [distance] at hk ⊢
    omega
  change (if (check.position k).number ≤ check.stopWalSegmentNo then _
    else if check.position (k + 1) ∈ check.walFolderSegments then _ else _) = _
  simp only [hstop, stored, decide_eq_true_eq]
  rfl

/-- How many moves a scan makes in round `i` at the `k`-th segment, with `m` segments to go. -/
def moves (config : SegmentScanConfig) : ℕ → ℕ → ℕ → ℕ
  | _, _, 0 => 0
  | i, k, m + 1 =>
    if config.unlimitedScan = true ∨ i < config.scanSegmentsLimit then
      if check.stored k && config.stopOnFirstFoundSegment then 1 else moves config (i + 1) (k + 1) m + 1
    else 0

/-- A scan records the segments of its moves, one after the other. -/
theorem scan_runnerAt (config : SegmentScanConfig) (i k m : ℕ) (hm : k + m = check.distance)
    (scanned : List ScannedSegmentDescription) :
    WalSegmentScanner.scan config i ⟨scanned, check.runnerAt k⟩ =
      ⟨scanned ++ (range' k (check.moves config i k m)).map (check.mark config.missingSegmentStatus),
        check.runnerAt (k + check.moves config i k m)⟩ := by
  induction m generalizing i k scanned with
  | zero =>
    have hstop := check.runnerAt_next (k := k) (by omega)
    rw [if_pos (by omega)] at hstop
    rw [WalSegmentScanner.scan_of_stop hstop, moves, range'_zero, map_nil, append_nil]
    rfl
  | succ m ih =>
    have hnext := check.runnerAt_next (k := k) (by omega)
    rw [if_neg (by omega)] at hnext
    rw [moves]
    split_ifs with hround hstored
    · rw [Bool.and_eq_true] at hstored
      rw [if_pos hstored.1] at hnext
      rw [WalSegmentScanner.scan_of_found hround hnext, if_pos hstored.2, range'_one, map_singleton,
        mark, if_pos hstored.1]
      rfl
    · have hmark : WalSegmentScanner.scan config i ⟨scanned, check.runnerAt k⟩ =
          WalSegmentScanner.scan config (i + 1)
            ⟨scanned ++ [check.mark config.missingSegmentStatus k], check.runnerAt (k + 1)⟩ := by
        rw [mark]
        cases hk : check.stored k with
        | false =>
          rw [hk, if_neg Bool.false_ne_true] at hnext
          rw [WalSegmentScanner.scan_of_missing hround hnext]
          rfl
        | true =>
          rw [hk, if_pos rfl] at hnext
          rw [hk, Bool.true_and] at hstored
          rw [WalSegmentScanner.scan_of_found hround hnext, if_neg hstored]
          rfl
      rw [hmark, ih (i + 1) (k + 1) (by omega), range'_succ, map_cons, append_assoc,
        singleton_append, Nat.add_assoc k 1, Nat.add_comm 1]
    · rw [WalSegmentScanner.scan_of_limit hround, range'_zero, map_nil, append_nil]
      rfl

theorem moves_unlimited (i k m : ℕ) : check.moves ⟨true, 0, false, missing⟩ i k m = m := by
  induction m generalizing i k with
  | zero => rfl
  | succ m ih => rw [moves, if_pos (.inl rfl), Bool.and_false, if_neg Bool.false_ne_true, ih]

theorem moves_limited (limit i k m : ℕ) : check.moves ⟨false, limit, false, missing⟩ i k m = min (limit - i) m := by
  induction m generalizing i k with
  | zero => rw [moves, Nat.min_zero]
  | succ m ih =>
    rw [moves, Bool.and_false, if_neg Bool.false_ne_true, ih]
    simp only [Bool.false_eq_true, false_or]
    split_ifs <;> omega

/-- The scan for the first stored segment ends with it, unless the limit is reached before. -/
theorem moves_firstFound (limit i k m : ℕ) :
    check.moves ⟨false, limit, true, missing⟩ i k m =
      min (limit - i) (min m ((range' k m).findIdx check.stored + 1)) := by
  induction m generalizing i k with
  | zero => rw [moves, Nat.zero_min, Nat.min_zero]
  | succ m ih =>
    rw [moves, Bool.and_true, ih, range'_succ, findIdx_cons]
    simp only [Bool.false_eq_true, false_or]
    cases check.stored k with
    | false =>
      simp only [cond_false, Bool.false_eq_true, if_false]
      split_ifs <;> omega
    | true =>
      simp only [cond_true, if_true]
      split_ifs <;> omega

/-- The length of the first phase: up to the first stored segment, within the limit. -/
def delayedPhase : ℕ :=
  min check.delayedSegmentRangeSize ((range check.distance).findIdx check.stored + 1)

/-- The status of the `k`-th segment, by the phase it falls in if it is missing. -/
def statusAt (k : ℕ) : ScannedSegmentStatus :=
  if check.stored k then .found
  else if k < check.delayedPhase then .probablyDelayed
  else if k < check.delayedPhase + check.uploadingSegmentRangeSize then .probablyUploading
  else .lost

theorem map_mark_eq {missing : ScannedSegmentStatus} {ks : List ℕ}
    (h : ∀ k ∈ ks, check.stored k = false → check.statusAt k = missing) :
    ks.map (check.mark missing) = ks.map fun k => ⟨check.position (k + 1), check.statusAt k⟩ := by
  apply map_congr_left
  intro k hk
  rw [mark]
  cases hstored : check.stored k with
  | false => rw [if_neg Bool.false_ne_true, h k hk hstored]
  | true => rw [statusAt, hstored, if_pos rfl, if_pos rfl]

/-- The three scans record every segment once, each with the status of its phase. -/
theorem scannedSegments_eq : check.scannedSegments =
    (range check.distance).map fun k => ⟨check.position (k + 1), check.statusAt k⟩ := by
  have hrun := fun config k m (hm : k + m = check.distance) => check.scan_runnerAt config 0 k m hm
  have hstart : check.newWalSegmentRunner = check.runnerAt 0 := rfl
  obtain ⟨delayed, hdelayed⟩ : ∃ c, c = min check.distance check.delayedPhase := ⟨_, rfl⟩
  obtain ⟨uploading, huploading⟩ :
      ∃ c, c = min check.uploadingSegmentRangeSize (check.distance - delayed) := ⟨_, rfl⟩
  have hmoves : check.moves ⟨false, check.delayedSegmentRangeSize, true, .probablyDelayed⟩ 0 0 check.distance =
      delayed := by
    rw [moves_firstFound, hdelayed, delayedPhase, range_eq_range']
    omega
  rw [scannedSegments, runWalIntegrityScan, hstart, hrun _ 0 check.distance (by omega), hmoves, Nat.zero_add,
    hrun _ delayed (check.distance - delayed) (by omega), moves_limited, Nat.sub_zero, ← huploading,
    hrun _ (delayed + uploading) (check.distance - (delayed + uploading)) (by omega), moves_unlimited, nil_append]
  change _ ++ _ ++ _ = _
  rw [check.map_mark_eq, check.map_mark_eq, check.map_mark_eq, ← map_append, ← map_append]
  · congr 1
    have hfirst := @range'_append_1 0 delayed uploading
    have hsecond := @range'_append_1 0 (delayed + uploading) (check.distance - (delayed + uploading))
    rw [Nat.zero_add] at hfirst hsecond
    rw [hfirst, hsecond, range_eq_range']
    congr 1
    omega
  · intro k hk hmissing
    rw [mem_range'_1] at hk
    rw [statusAt, hmissing, if_neg Bool.false_ne_true, if_neg (by omega), if_neg (by omega)]
  · intro k hk hmissing
    rw [mem_range'_1] at hk
    rw [statusAt, hmissing, if_neg Bool.false_ne_true, if_neg (by omega), if_pos (by omega)]
  · intro k hk hmissing
    rw [mem_range'_1] at hk
    rw [statusAt, hmissing, if_neg Bool.false_ne_true, if_pos (by omega)]

end IntegrityCheckRunner

end WalG.Verify
