import WalG.Verify.Scanner
import WalG.Verify.History
import WalG.Foundation.Table

/-! # The walk along the timeline history

The switch map keeps one record for a segment, the last one, so of two switches within one segment
the runner sees only the later one.
-/
namespace WalG.Verify
open Foundation List

inductive HistoryError where
  | historyFileNotFound
  | unreadable
  deriving DecidableEq, Repr

/-- A timeline without a history file has no switches. -/
def createTimelineSwitchMap (w : Wal.WalSize) (historyRecords : Except HistoryError (List TimelineHistoryRecord)) :
    Except HistoryError (Table UInt64 TimelineHistoryRecord) :=
  match historyRecords with
  | .error .historyFileNotFound => .ok .empty
  | .error err => .error err
  | .ok records => .ok (Table.empty.setAll (·.switchSegmentNo w) id records)

/-- What is read for the current timeline. -/
def History.ReadAs (history : History) (historyRecords : Except HistoryError (List TimelineHistoryRecord)) : Prop :=
  historyRecords = .ok history.records ∨
    historyRecords = .error .historyFileNotFound ∧ history.records = []

/-- The moves of a runner: to the next stored segment, or past one that is not stored. -/
inductive WalSegmentRunner.Visits (runner : WalSegmentRunner) : WalSegmentRunner → Prop
  | start : Visits runner runner
  | next {r r' : WalSegmentRunner} : Visits runner r → r.next = .ok r' → Visits runner r'
  | forced {r : WalSegmentRunner} {segment : WalSegmentDescription} : Visits runner r →
      r.next = .error (.walSegmentNotFound segment) → Visits runner r.forceMoveNext

namespace WalSegmentRunner

variable {runner r : WalSegmentRunner}

theorem Visits.move (h : runner.Visits r) (hstop : ¬ r.currentWalSegment.number ≤ r.stopSegmentNo) :
    runner.Visits r.forceMoveNext := by
  by_cases hstored : r.getNextSegment ∈ r.walFolderSegments
  · exact h.next (by rw [WalSegmentRunner.next, if_neg hstop, if_pos hstored])
  · exact h.forced (by rw [WalSegmentRunner.next, if_neg hstop, if_neg hstored])

/-- What every move above the stop number keeps holds of all visited segments. -/
theorem Visits.invariant {p : WalSegmentRunner → Prop} (h : runner.Visits r) (hstart : p runner)
    (hmove : ∀ r, p r → ¬ r.currentWalSegment.number ≤ r.stopSegmentNo → p r.forceMoveNext) : p r := by
  induction h with
  | start => exact hstart
  | next _ hnext ih =>
    obtain ⟨hstop, rfl⟩ := next_ok hnext
    exact hmove _ ih hstop
  | forced _ hnext ih => exact hmove _ ih (not_stop_of_notFound hnext)

theorem Visits.unchanged (h : runner.Visits r) :
    r.stopSegmentNo = runner.stopSegmentNo ∧ r.timelineSwitchMap = runner.timelineSwitchMap :=
  h.invariant (p := fun r => r.stopSegmentNo = runner.stopSegmentNo ∧ r.timelineSwitchMap = runner.timelineSwitchMap)
    ⟨rfl, rfl⟩ fun _ hr _ => hr

/-- All segment numbers from the start down to the stop number are visited. -/
theorem exists_visits {number : UInt64} (hle : number ≤ runner.currentWalSegment.number)
    (hstop : runner.stopSegmentNo ≤ number) : ∃ r, runner.Visits r ∧ r.currentWalSegment.number = number := by
  obtain ⟨k, hk⟩ := Nat.exists_eq_add_of_le (UInt64.le_iff_toNat_le.mp hle)
  have hreach : ∀ j ≤ k, ∃ r, runner.Visits r ∧ r.currentWalSegment.number.toNat = number.toNat + (k - j) := by
    intro j hj
    induction j with
    | zero => exact ⟨runner, .start, hk⟩
    | succ j ih =>
      obtain ⟨r, hr, hnumber⟩ := ih (by omega)
      have habove : ¬ r.currentWalSegment.number ≤ r.stopSegmentNo := by
        rw [hr.unchanged.1, UInt64.le_iff_toNat_le, hnumber]
        have := UInt64.le_iff_toNat_le.mp hstop
        omega
      have hmove := toNat_forceMoveNext habove
      exact ⟨_, hr.move habove, by omega⟩
  obtain ⟨r, hr, hnumber⟩ := hreach k le_rfl
  rw [Nat.sub_self, Nat.add_zero] at hnumber
  exact ⟨r, hr, UInt64.toNat_inj.mp hnumber⟩

end WalSegmentRunner

def switchTimeline (switches : Table UInt64 TimelineHistoryRecord) : TimelineSwitchMap :=
  fun number => (switches.get number).map (·.timeline)

theorem timeline_forceMoveNext {switches : Table UInt64 TimelineHistoryRecord} {r : WalSegmentRunner}
    (hmap : r.timelineSwitchMap = switchTimeline switches) :
    r.forceMoveNext.currentWalSegment.timeline =
      ((switches.get r.currentWalSegment.number).map (·.timeline)).getD r.currentWalSegment.timeline := by
  change (r.timelineSwitchMap r.currentWalSegment.number).getD _ = _
  rw [hmap]
  rfl

/-- A runner on the current timeline. -/
def History.runner (history : History) (startSegmentNo : UInt64) (segments : List WalSegmentDescription)
    (stopSegmentNo : UInt64) (switches : Table UInt64 TimelineHistoryRecord) : WalSegmentRunner where
  currentWalSegment := ⟨startSegmentNo, history.current⟩
  walFolderSegments := segments
  stopSegmentNo := stopSegmentNo
  timelineSwitchMap := switchTimeline switches

section Walk

variable {w : Wal.WalSize} {history : History} {switches : Table UInt64 TimelineHistoryRecord}
  {historyRecords : Except HistoryError (List TimelineHistoryRecord)} (hread : history.ReadAs historyRecords)
  (hswitches : createTimelineSwitchMap w historyRecords = .ok switches)

include hread hswitches

theorem switches_eq : switches = Table.empty.setAll (·.switchSegmentNo w) id history.records := by
  rcases hread with rfl | ⟨rfl, hnil⟩
  · exact (Except.ok.inj hswitches).symm
  · rw [hnil]
    exact (Except.ok.inj hswitches).symm

theorem switchSegmentNo_ne_of_get {number : UInt64} (h : switches.get number = none) :
    ∀ r ∈ history.records, r.switchSegmentNo w ≠ number := by
  rw [switches_eq hread hswitches] at h
  exact (Table.get_setAll_eq_none h).2

theorem switches_get {number : UInt64} {record : TimelineHistoryRecord} (h : switches.get number = some record) :
    record ∈ history.records ∧ record.switchSegmentNo w = number ∧
      ∀ r ∈ history.records, r.switchSegmentNo w = number → r.timeline ≤ record.timeline := by
  rw [switches_eq hread hswitches] at h
  rcases Table.get_setAll_eq_some h with ⟨hempty, -⟩ | ⟨before, r, after, hrecords, hnumber, rfl, hafter⟩
  · cases hempty
  · have hsorted := history.sorted
    rw [hrecords] at hsorted ⊢
    refine ⟨mem_append_right _ mem_cons_self, hnumber, fun r hr hrnumber => ?_⟩
    rcases mem_append.mp hr with hr | hr
    · exact UInt32.le_of_lt ((pairwise_append.mp hsorted).2.2 r hr _ mem_cons_self).1
    · rcases mem_cons.mp hr with rfl | hr
      · exact UInt32.le_refl _
      · exact absurd hrnumber (hafter r hr)

variable {stopSegmentNo : UInt64}

/-- One move keeps the timeline right if the switches are apart. -/
theorem owns_forceMoveNext (hapart : history.SwitchesApart w stopSegmentNo) {r : WalSegmentRunner}
    (hmap : r.timelineSwitchMap = switchTimeline switches) (hstop : r.stopSegmentNo = stopSegmentNo)
    (howns : history.Owns w r.currentWalSegment.timeline r.currentWalSegment.number)
    (habove : ¬ r.currentWalSegment.number ≤ r.stopSegmentNo) :
    history.Owns w r.forceMoveNext.currentWalSegment.timeline r.forceMoveNext.currentWalSegment.number := by
  have hbelow := WalSegmentRunner.toNat_forceMoveNext habove
  rw [timeline_forceMoveNext hmap]
  cases hget : switches.get r.currentWalSegment.number with
  | none => exact howns.stays hbelow (switchSegmentNo_ne_of_get hread hswitches hget)
  | some record =>
    obtain ⟨hrecord, hnumber, -⟩ := switches_get hread hswitches hget
    rw [← hnumber] at hbelow habove
    refine History.owns_below_switch hrecord hbelow fun s hs hlt heq => habove ?_
    rw [hstop, ← heq]
    exact hapart s hs record hrecord hlt heq

variable {startSegmentNo : UInt64} (hstart : ∀ r ∈ history.records, r.switchSegmentNo w ≤ startSegmentNo)
  (segments : List WalSegmentDescription)

include hstart

theorem owns_of_visits (hapart : history.SwitchesApart w stopSegmentNo) {r : WalSegmentRunner}
    (h : (history.runner startSegmentNo segments stopSegmentNo switches).Visits r) :
    history.Owns w r.currentWalSegment.timeline r.currentWalSegment.number := by
  refine (h.invariant (p := fun r => r.stopSegmentNo = stopSegmentNo ∧ r.timelineSwitchMap = switchTimeline switches ∧
    history.Owns w r.currentWalSegment.timeline r.currentWalSegment.number) ?_ ?_).2.2
  · exact ⟨rfl, rfl, History.owns_current hstart⟩
  · rintro r ⟨hstop, hmap, howns⟩ habove
    exact ⟨hstop, hmap, owns_forceMoveNext hread hswitches hapart hmap hstop howns habove⟩

/-- Of two switches in one segment the runner follows the later one, to a timeline that had not begun below. -/
theorem exists_visits_not_owns {r s : TimelineHistoryRecord} (hr : r ∈ history.records) (hs : s ∈ history.records)
    (hlt : r.timeline < s.timeline) (heq : r.switchSegmentNo w = s.switchSegmentNo w)
    (habove : ¬ r.switchSegmentNo w ≤ stopSegmentNo) :
    ∃ visited, (history.runner startSegmentNo segments stopSegmentNo switches).Visits visited ∧
      ¬ history.Owns w visited.currentWalSegment.timeline visited.currentWalSegment.number := by
  obtain ⟨visited, hvisited, hnumber⟩ : ∃ visited,
      (history.runner startSegmentNo segments stopSegmentNo switches).Visits visited ∧
        visited.currentWalSegment.number = r.switchSegmentNo w :=
    WalSegmentRunner.exists_visits (hstart r hr) (UInt64.le_of_lt (UInt64.not_le.mp habove))
  obtain ⟨hstop, hmap⟩ := hvisited.unchanged
  have habove' : ¬ visited.currentWalSegment.number ≤ visited.stopSegmentNo := by rwa [hnumber, hstop]
  have hbelow := WalSegmentRunner.toNat_forceMoveNext habove'
  refine ⟨_, hvisited.move habove', ?_⟩
  rw [hnumber] at hbelow
  rw [timeline_forceMoveNext hmap, hnumber]
  cases hget : switches.get (r.switchSegmentNo w) with
  | none => exact absurd rfl (switchSegmentNo_ne_of_get hread hswitches hget r hr)
  | some record =>
    have hlast := (switches_get hread hswitches hget).2.2 s hs heq.symm
    exact History.not_owns_below hr (UInt32.lt_of_lt_of_le hlt hlast) hbelow

end Walk

/-- From the last switch on downwards the runner pairs every segment with the timeline that owns it exactly if no
two switches lie in one segment above the stop number. -/
theorem visits_owns_iff (w : Wal.WalSize) (history : History)
    (historyRecords : Except HistoryError (List TimelineHistoryRecord)) (hread : history.ReadAs historyRecords)
    (switches : Table UInt64 TimelineHistoryRecord)
    (hswitches : createTimelineSwitchMap w historyRecords = .ok switches) (startSegmentNo stopSegmentNo : UInt64)
    (hstart : ∀ r ∈ history.records, r.switchSegmentNo w ≤ startSegmentNo) (segments : List WalSegmentDescription) :
    (∀ r, (history.runner startSegmentNo segments stopSegmentNo switches).Visits r →
      history.Owns w r.currentWalSegment.timeline r.currentWalSegment.number) ↔
    history.SwitchesApart w stopSegmentNo := by
  constructor
  · intro howns r hr s hs hlt heq
    by_contra habove
    obtain ⟨visited, hvisited, hnot⟩ :=
      exists_visits_not_owns hread hswitches hstart segments hr hs hlt heq habove
    exact hnot (howns visited hvisited)
  · intro hapart r hvisited
    exact owns_of_visits hread hswitches hstart segments hapart hvisited

theorem oneSwitch_sorted : [TimelineHistoryRecord.mk 1 0x3000028].Pairwise
    fun r s => r.timeline < s.timeline ∧ r.lsn ≤ s.lsn := pairwise_singleton _ _

theorem oneSwitch_lt_current : ∀ r ∈ [TimelineHistoryRecord.mk 1 0x3000028], r.timeline < 3 := by decide

/-- Timeline 3 branched off timeline 1 in the third segment. -/
def oneSwitch : History where
  records := [⟨1, 0x3000028⟩]
  current := 3
  sorted := oneSwitch_sorted
  lt_current := oneSwitch_lt_current

theorem visits_owns_oneSwitch : oneSwitch.SwitchesApart .default 1 ∧ ∀ r, (oneSwitch.runner 5 [⟨4, 3⟩] 1
        (Table.empty.setAll (·.switchSegmentNo .default) id oneSwitch.records)).Visits r →
      oneSwitch.Owns .default r.currentWalSegment.timeline r.currentWalSegment.number := by
  have hapart : oneSwitch.SwitchesApart .default 1 := by decide +kernel
  have hstart : ∀ r ∈ oneSwitch.records, r.switchSegmentNo .default ≤ 5 := by decide +kernel
  refine ⟨hapart, ?_⟩
  exact (visits_owns_iff .default oneSwitch (.ok oneSwitch.records) (.inl rfl) _ rfl 5 1 hstart _).mpr hapart

theorem twoSwitches_sorted : [TimelineHistoryRecord.mk 1 0x3000028, TimelineHistoryRecord.mk 2 0x3000090].Pairwise
    fun r s => r.timeline < s.timeline ∧ r.lsn ≤ s.lsn := by decide

theorem twoSwitches_lt_current : ∀ r ∈ [TimelineHistoryRecord.mk 1 0x3000028, TimelineHistoryRecord.mk 2 0x3000090],
    r.timeline < 3 := by decide

/-- Two switches in the third segment. -/
def twoSwitches : History where
  records := [⟨1, 0x3000028⟩, ⟨2, 0x3000090⟩]
  current := 3
  sorted := twoSwitches_sorted
  lt_current := twoSwitches_lt_current

/-- The walk takes segment 2 for one of timeline 2, which began only in segment 3. -/
theorem twoSwitches_wrong_timeline : ∃ r, (twoSwitches.runner 4 [] 1
      (Table.empty.setAll (·.switchSegmentNo .default) id twoSwitches.records)).Visits r ∧
    r.currentWalSegment = ⟨2, 2⟩ ∧ ¬ twoSwitches.Owns .default 2 2 ∧ twoSwitches.Owns .default 1 2 := by
  have hfirst : ⟨1, 0x3000028⟩ ∈ twoSwitches.records := mem_cons_self
  refine ⟨_, (WalSegmentRunner.Visits.start.move ?_).move ?_, ?_, ?_, ?_⟩
  · decide +kernel
  · decide +kernel
  · decide +kernel
  · exact History.not_owns_below hfirst (by decide) (by decide +kernel)
  · exact History.owns_below_switch hfirst (by decide +kernel) (by decide +kernel)

end WalG.Verify
