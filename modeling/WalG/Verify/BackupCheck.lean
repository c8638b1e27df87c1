import WalG.Verify.TimelineSwitch

/-! # The check of a backup against the history

A backup must lie between the beginning and the end of its timeline.
-/
namespace WalG.Verify
open Foundation List

structure BackupDetail where
  walFileName : Text
  isPermanent : Bool
  deriving DecidableEq

/-- The segments in which the timelines of the switch map ended. -/
def switchSegNoByTimeline (w : Wal.WalSize) (order : MapOrder UInt64) (switches : Table UInt64 TimelineHistoryRecord) :
    Table UInt32 UInt64 :=
  Table.empty.setAll (·.timeline) (·.switchSegmentNo w) (switches.values order)

def checkBackupIsCorrect (currentTimeline : UInt32) (backup : BackupDetail) (segment : WalSegmentDescription)
    (switchSegNo : Table UInt32 UInt64) : Bool :=
  if backup.isPermanent then false
  else if 0 < switchSegNo.entries.length then
    if 1 < segment.timeline ∧ (switchSegNo.get (segment.timeline - 1)).any (segment.number < ·) = true then false
    else if segment.timeline = currentTimeline then true
    else
      match switchSegNo.get segment.timeline with
      | none => false
      | some endSegNo => decide (segment.number < endSegNo)
  else true

/-- The segment lies on its timeline between the beginning and the end in the history. -/
def History.Covers (history : History) (w : Wal.WalSize) (segment : WalSegmentDescription) : Prop :=
  (∃ first ≤ segment.number, (segment.timeline, first) ∈ history.beginnings w) ∧
    ∀ r ∈ history.records, r.timeline = segment.timeline → segment.number < r.switchSegmentNo w

/-- The record is the last one in its segment, which is the one that the switch map keeps. -/
def History.Kept (history : History) (w : Wal.WalSize) (r : TimelineHistoryRecord) : Prop :=
  r ∈ history.records ∧
    ∀ s ∈ history.records, s.switchSegmentNo w = r.switchSegmentNo w → s.timeline ≤ r.timeline

/-- The segment lies before the beginning of its timeline, and the beginning is not found: no record
that is kept has the number before that of the timeline. -/
def History.Overlooked (history : History) (w : Wal.WalSize) (segment : WalSegmentDescription) : Prop :=
  (∃ first, (segment.timeline, first) ∈ history.beginnings w ∧ segment.number < first) ∧
    (1 < segment.timeline → ∀ r, history.Kept w r → r.timeline ≠ segment.timeline - 1) ∧
    (segment.timeline = history.current ∨ ∃ r, history.Kept w r ∧ r.timeline = segment.timeline)

/-- The end of the segment's timeline is not found. -/
def History.Lost (history : History) (w : Wal.WalSize) (segment : WalSegmentDescription) : Prop :=
  ∃ r ∈ history.records, r.timeline = segment.timeline ∧ ¬ history.Kept w r

namespace History

variable {w : Wal.WalSize} {history : History} {r s : TimelineHistoryRecord}

theorem eq_of_timeline_eq (hr : r ∈ history.records) (hs : s ∈ history.records) (h : r.timeline = s.timeline) :
    r = s :=
  (eq_or_ended_before hr hs (h ▸ UInt32.le_refl _)).resolve_right fun hlt => UInt32.lt_irrefl _ (h ▸ hlt.1)

theorem toNat_pred {a : UInt32} (h : 1 < a) : (a - 1).toNat + 1 = a.toNat := by
  rw [UInt32.toNat_sub_of_le _ _ (UInt32.le_of_lt h)]
  exact Nat.sub_add_cancel (Nat.le_of_lt (UInt32.lt_iff_toNat_lt.mp h))

/-- A timeline does not begin after its end. -/
theorem beginning_le (hr : r ∈ history.records) {first : UInt64}
    (hfirst : (r.timeline, first) ∈ history.beginnings w) : first ≤ r.switchSegmentNo w := by
  rcases mem_beginnings hfirst with rfl | ⟨s, hs, hlt, rfl⟩
  · exact UInt64.zero_le
  · exact switchSegmentNo_mono hs hr (UInt32.le_of_lt hlt)

theorem Overlooked.not_covers {segment : WalSegmentDescription} (h : history.Overlooked w segment) :
    ¬ history.Covers w segment := by
  rintro ⟨⟨first, hle, hfirst⟩, -⟩
  obtain ⟨⟨start, hstart, hlt⟩, -⟩ := h
  rcases mem_beginnings hstart with rfl | ⟨r, hr, hrlt, rfl⟩
  · exact UInt64.not_lt_zero hlt
  · have hbegin := UInt64.le_trans (switchSegmentNo_le_beginning hr hfirst hrlt) hle
    exact UInt64.not_lt.mpr hbegin hlt

end History

/-- The segment passes the check of the beginning and that of the end. -/
def Passes (currentTimeline : UInt32) (switchSegNo : Table UInt32 UInt64) (segment : WalSegmentDescription) : Prop :=
  (1 < segment.timeline → ∀ startSegNo, switchSegNo.get (segment.timeline - 1) = some startSegNo →
    startSegNo ≤ segment.number) ∧
  (segment.timeline = currentTimeline ∨
    ∃ endSegNo, switchSegNo.get segment.timeline = some endSegNo ∧ segment.number < endSegNo)

section Check

variable {w : Wal.WalSize} {history : History} {switches : Table UInt64 TimelineHistoryRecord}
  (hswitches : createTimelineSwitchMap w (.ok history.records) = .ok switches) (order : MapOrder UInt64)

include hswitches

theorem exists_switches_get {r : TimelineHistoryRecord} (hr : r ∈ history.records) :
    ∃ s, switches.get (r.switchSegmentNo w) = some s := by
  cases hget : switches.get (r.switchSegmentNo w) with
  | none => exact absurd rfl (switchSegmentNo_ne_of_get (.inl rfl) hswitches hget r hr)
  | some s => exact ⟨s, rfl⟩

/-- The records of the switch map are those that are the last in their segments. -/
theorem mem_values_switches {r : TimelineHistoryRecord} : r ∈ switches.values order ↔ history.Kept w r := by
  rw [Table.mem_values_iff]
  constructor
  · rintro ⟨number, hget⟩
    obtain ⟨hr, rfl, hlast⟩ := switches_get (.inl rfl) hswitches hget
    exact ⟨hr, hlast⟩
  · rintro ⟨hr, hlast⟩
    obtain ⟨s, hget⟩ := exists_switches_get hswitches hr
    obtain ⟨hs, hnumber, hslast⟩ := switches_get (.inl rfl) hswitches hget
    have htimeline := UInt32.le_antisymm (hlast s hs hnumber) (hslast r hr rfl)
    rw [← History.eq_of_timeline_eq hs hr htimeline]
    exact ⟨_, hget⟩

theorem switchSegNo_get {timeline : UInt32} {number : UInt64} :
    (switchSegNoByTimeline w order switches).get timeline = some number ↔
      ∃ r, history.Kept w r ∧ r.timeline = timeline ∧ r.switchSegmentNo w = number := by
  have hvalue {number : UInt64} (h : (switchSegNoByTimeline w order switches).get timeline = some number) :
      ∃ r, history.Kept w r ∧ r.timeline = timeline ∧ r.switchSegmentNo w = number := by
    rcases Table.get_setAll_eq_some h with ⟨hempty, -⟩ | ⟨before, r, after, hvalues, htimeline, hnumber, -⟩
    · cases hempty
    · have hr : r ∈ switches.values order := hvalues ▸ mem_append_right _ mem_cons_self
      exact ⟨r, (mem_values_switches hswitches order).mp hr, htimeline, hnumber⟩
  refine ⟨hvalue, ?_⟩
  rintro ⟨r, hr, rfl, rfl⟩
  cases hget : (switchSegNoByTimeline w order switches).get r.timeline with
  | none =>
    have hmem := (mem_values_switches hswitches order).mpr hr
    exact absurd rfl ((Table.get_setAll_eq_none hget).2 r hmem)
  | some number =>
    obtain ⟨s, hs, htimeline, rfl⟩ := hvalue hget
    rw [History.eq_of_timeline_eq hs.1 hr.1 htimeline]

theorem switchSegNo_pos (hne : history.records ≠ []) :
    0 < (switchSegNoByTimeline w order switches).entries.length := by
  obtain ⟨r, hr⟩ := exists_mem_of_ne_nil _ hne
  obtain ⟨s, hget⟩ := exists_switches_get hswitches hr
  obtain ⟨hs, hnumber, hlast⟩ := switches_get (.inl rfl) hswitches hget
  have hsome : (switchSegNoByTimeline w order switches).get s.timeline = some (s.switchSegmentNo w) :=
    (switchSegNo_get hswitches order).mpr ⟨s, ⟨hs, fun q hq heq => hlast q hq (heq.trans hnumber)⟩, rfl, rfl⟩
  exact length_pos_of_mem (mem_of_lookup_eq_some hsome)

theorem checkBackupIsCorrect_iff (hne : history.records ≠ []) (backup : BackupDetail)
    (segment : WalSegmentDescription) :
    checkBackupIsCorrect history.current backup segment (switchSegNoByTimeline w order switches) = true ↔
      backup.isPermanent = false ∧ Passes history.current (switchSegNoByTimeline w order switches) segment := by
  rw [checkBackupIsCorrect, if_pos (switchSegNo_pos hswitches order hne), Passes]
  have hbefore (hstart : ¬ (1 < segment.timeline ∧
      ((switchSegNoByTimeline w order switches).get (segment.timeline - 1)).any (segment.number < ·) = true))
      (hone : 1 < segment.timeline) (startSegNo : UInt64)
      (hget : (switchSegNoByTimeline w order switches).get (segment.timeline - 1) = some startSegNo) :
      startSegNo ≤ segment.number := by
    refine UInt64.not_lt.mp fun hlt => hstart ⟨hone, ?_⟩
    rw [hget]
    exact decide_eq_true hlt
  cases backup.isPermanent with
  | true => simp
  | false =>
    rw [if_neg Bool.false_ne_true]
    split_ifs with hstart hcurrent
    · obtain ⟨hone, hany⟩ := hstart
      obtain ⟨startSegNo, hget, hlt⟩ := (Option.any_eq_true _ _).mp hany
      refine iff_of_false not_false fun h => ?_
      exact UInt64.not_lt.mpr (h.2.1 hone startSegNo hget) (of_decide_eq_true hlt)
    · exact iff_of_true rfl ⟨rfl, hbefore hstart, .inl hcurrent⟩
    · have hle := hbefore hstart
      cases (switchSegNoByTimeline w order switches).get segment.timeline with
      | none => simp [hcurrent]
      | some endSegNo => simpa [hcurrent] using fun _ => hle

/-- The check lets through what it overlooks and what is on its timeline with an end that is found. -/
theorem passes_iff {segment : WalSegmentDescription} :
    Passes history.current (switchSegNoByTimeline w order switches) segment ↔
      history.Overlooked w segment ∨ history.Covers w segment ∧ ¬ history.Lost w segment := by
  constructor
  · rintro ⟨hstart, hend⟩
    have hkept : segment.timeline = history.current ∨
        ∃ r, history.Kept w r ∧ r.timeline = segment.timeline ∧ segment.number < r.switchSegmentNo w := by
      refine hend.imp_right ?_
      rintro ⟨endSegNo, hget, hlt⟩
      obtain ⟨r, hr, htimeline, rfl⟩ := (switchSegNo_get hswitches order).mp hget
      exact ⟨r, hr, htimeline, hlt⟩
    obtain ⟨first, hfirst⟩ : ∃ first, (segment.timeline, first) ∈ history.beginnings w := by
      rcases hkept with heq | ⟨r, hr, heq, -⟩
      · rw [heq]
        exact exists_beginning_current
      · rw [← heq]
        exact exists_beginning hr.1
    by_cases hbefore : segment.number < first
    · refine .inl ⟨⟨first, hfirst, hbefore⟩, fun hone r hr htimeline => ?_, ?_⟩
      · have hle := hstart hone _ ((switchSegNo_get hswitches order).mpr ⟨r, hr, htimeline, rfl⟩)
        rcases History.mem_beginnings hfirst with rfl | ⟨s, hs, hlt, rfl⟩
        · exact UInt64.not_lt_zero hbefore
        · have hsr : s.timeline ≤ r.timeline := by
            rw [UInt32.le_iff_toNat_le, htimeline]
            rw [UInt32.lt_iff_toNat_lt, ← History.toNat_pred hone] at hlt
            exact Nat.le_of_lt_succ hlt
          exact UInt64.not_lt.mpr (UInt64.le_trans (History.switchSegmentNo_mono hs hr.1 hsr) hle) hbefore
      · exact hkept.imp_right fun ⟨r, hr, htimeline, _⟩ => ⟨r, hr, htimeline⟩
    · refine .inr ⟨⟨⟨first, UInt64.not_lt.mp hbefore, hfirst⟩, fun r hr heq => ?_⟩, ?_⟩
      · rcases hkept with hcurrent | ⟨s, hs, htimeline, hlt⟩
        · exact absurd (history.lt_current r hr) (by rw [heq, hcurrent]; exact UInt32.lt_irrefl _)
        · rwa [History.eq_of_timeline_eq hr hs.1 (heq.trans htimeline.symm)]
      · rintro ⟨r, hr, heq, hnot⟩
        rcases hkept with hcurrent | ⟨s, hs, htimeline, -⟩
        · exact absurd (history.lt_current r hr) (by rw [heq, hcurrent]; exact UInt32.lt_irrefl _)
        · exact hnot (History.eq_of_timeline_eq hr hs.1 (heq.trans htimeline.symm) ▸ hs)
  · rintro (⟨⟨first, hfirst, hbefore⟩, hnone, hend⟩ | ⟨⟨⟨first, hle, hfirst⟩, hend⟩, hlost⟩)
    · refine ⟨fun hone startSegNo hget => ?_, hend.imp_right ?_⟩
      · obtain ⟨r, hr, htimeline, -⟩ := (switchSegNo_get hswitches order).mp hget
        exact absurd htimeline (hnone hone r hr)
      · rintro ⟨r, hr, htimeline⟩
        refine ⟨_, (switchSegNo_get hswitches order).mpr ⟨r, hr, htimeline, rfl⟩, ?_⟩
        exact UInt64.lt_of_lt_of_le hbefore (History.beginning_le hr.1 (htimeline ▸ hfirst))
    · refine ⟨fun hone startSegNo hget => ?_, ?_⟩
      · obtain ⟨r, hr, htimeline, rfl⟩ := (switchSegNo_get hswitches order).mp hget
        have hlt : r.timeline < segment.timeline := by
          rw [htimeline, UInt32.lt_iff_toNat_lt, ← History.toNat_pred hone]
          exact Nat.lt_succ_self _
        exact UInt64.le_trans (History.switchSegmentNo_le_beginning hr.1 hfirst hlt) hle
      · refine (timeline_of_mem_beginningsFrom hfirst).imp_right ?_
        rintro ⟨r, hr, htimeline⟩
        have hkept : history.Kept w r := by
          by_contra hnot
          exact hlost ⟨r, hr, htimeline, hnot⟩
        exact ⟨_, (switchSegNo_get hswitches order).mpr ⟨r, hkept, htimeline, rfl⟩, hend r hr htimeline⟩

end Check

end WalG.Verify
