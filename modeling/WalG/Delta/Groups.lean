import WalG.Delta.Manager

/-! # Groups of segments

The delta file of sixteen segments goes by the name of the first of them.
-/
namespace WalG.Delta
open Foundation Backup Wal List

/-- A group, by its first segment. -/
structure DeltaGroup (w : WalSize) where
  first : WalSegment w
  aligned : first.no % walFileInDelta = 0
  deriving DecidableEq

variable {w : WalSize}

theorem div_lt_iff {n : ℕ} : n / w.xLogSegmentsPerXLogID < 2 ^ 32 ↔ n < 2 ^ 32 * w.xLogSegmentsPerXLogID :=
  Nat.div_lt_iff_lt_mul (xLogSegmentsPerXLogID_pos w)

theorem group_no_lt (s : WalSegment w) : newDeltaNoFromWalSegmentNo s.no / w.xLogSegmentsPerXLogID < 2 ^ 32 :=
  (Nat.div_le_div_right (Nat.sub_le _ _)).trans_lt s.no_lt

theorem group_aligned (s : WalSegment w) : newDeltaNoFromWalSegmentNo s.no % walFileInDelta = 0 := by
  unfold newDeltaNoFromWalSegmentNo walFileInDelta
  omega

/-- The group of a segment. -/
def group (s : WalSegment w) : DeltaGroup w :=
  ⟨⟨s.timeline, newDeltaNoFromWalSegmentNo s.no, s.timeline_lt, group_no_lt s⟩, group_aligned s⟩

/-- The place of a segment in its group. -/
def position (s : WalSegment w) : Position := ⟨s.no % walFileInDelta, Nat.mod_lt _ walFileInDelta_pos⟩

namespace DeltaGroup

variable (g : DeltaGroup w)

def name : Text := deltaFilename w g.first.timeline g.first.no

theorem segment_no_lt (id : Position) : (g.first.no + id) / w.xLogSegmentsPerXLogID < 2 ^ 32 := by
  have hfirst := div_lt_iff.mp g.first.no_lt
  have hid : id.val < 16 := id.isLt
  have haligned : g.first.no % 16 = 0 := g.aligned
  rw [div_lt_iff]
  omega

/-- The segment at a place of the group. -/
def segment (id : Position) : WalSegment w :=
  ⟨g.first.timeline, g.first.no + id, g.first.timeline_lt, g.segment_no_lt id⟩

theorem preceding_no_lt : (g.first.no - 1) / w.xLogSegmentsPerXLogID < 2 ^ 32 :=
  (Nat.div_le_div_right (Nat.sub_le _ _)).trans_lt g.first.no_lt

/-- The segment before the group. -/
def preceding : Option (WalSegment w) :=
  if g.first.no = 0 then none
  else some ⟨g.first.timeline, g.first.no - 1, g.first.timeline_lt, g.preceding_no_lt⟩

theorem preceding_eq_some_iff {s : WalSegment w} :
    g.preceding = some s ↔ g.first.timeline = s.timeline ∧ g.first.no = s.no + 1 := by
  obtain ⟨timeline, no, htimeline, hno⟩ := s
  unfold preceding
  split_ifs with hzero
  · simp [hzero]
  · rw [Option.some.injEq, WalSegment.mk.injEq]
    refine and_congr_right fun _ => ?_
    dsimp only
    omega

@[simp] theorem group_segment (id : Position) : group (g.segment id) = g := by
  obtain ⟨⟨timeline, no, htimeline, hno⟩, haligned⟩ := g
  have hfirst : no % 16 = 0 := haligned
  have hno' : newDeltaNoFromWalSegmentNo (no + id) = no := by
    unfold newDeltaNoFromWalSegmentNo walFileInDelta
    omega
  simp only [group, segment, hno']

@[simp] theorem position_segment (id : Position) : position (g.segment id) = id := by
  have hid : id.val < 16 := id.isLt
  have haligned : g.first.no % 16 = 0 := g.aligned
  apply Fin.ext
  show (g.first.no + id) % 16 = id
  omega

@[simp] theorem segment_position (s : WalSegment w) : (group s).segment (position s) = s := by
  obtain ⟨timeline, no, htimeline, hno⟩ := s
  have hno' : newDeltaNoFromWalSegmentNo no + no % walFileInDelta = no := Nat.sub_add_cancel (Nat.mod_le _ _)
  simp only [segment, group, position, hno']

theorem segment_injective : Function.Injective g.segment := by
  intro id id' h
  rw [← g.position_segment id, h, g.position_segment]

theorem name_injective {g g' : DeltaGroup w} (h : g.name = g'.name) : g = g' := by
  obtain ⟨first, haligned⟩ := g
  obtain ⟨first', haligned'⟩ := g'
  have hfirst : first = first' := WalSegment.filename_injective (append_cancel_right h)
  simp only [hfirst]

theorem name_ne_nil : g.name ≠ [] :=
  append_ne_nil_of_right_ne_nil _ (by decide : deltaFilenameSuffix ≠ [])

end DeltaGroup

section Names

variable (s : WalSegment w)

theorem getDeltaFilenameFor_filename : getDeltaFilenameFor w s.filename = some (group s).name := by
  rw [getDeltaFilenameFor, s.parseWALFilename_filename]
  rfl

theorem getPositionInDelta_filename : getPositionInDelta w s.filename = position s := by
  rw [getPositionInDelta, s.parseWALFilename_filename]
  rfl

theorem formatHex_length_le (digits n : ℕ) (h : 16 ^ digits ≤ n) : digits < (formatHex digits n).length := by
  have hlog : digits ≤ Nat.log 16 n := Nat.le_log_of_pow_le (by decide) h
  rw [formatHex, hexFixed_length]
  exact lt_of_lt_of_le (Nat.lt_succ_of_le hlog) (le_max_right _ _)

theorem parseWALFilename_of_le {timeline no : ℕ} (h : 2 ^ 32 ≤ no / w.xLogSegmentsPerXLogID) :
    parseWALFilename w (formatWALFileName w timeline no) = none := by
  have hlong : 8 < (formatHex 8 (no / w.xLogSegmentsPerXLogID)).length := formatHex_length_le 8 _ h
  have hlen (n : ℕ) : 8 ≤ (formatHex 8 n).length := by
    rw [formatHex, hexFixed_length]
    exact le_max_left _ _
  have htimeline := hlen timeline
  have hlow := hlen (no % w.xLogSegmentsPerXLogID)
  rw [parseWALFilename, if_pos]
  rw [formatWALFileName, length_append, length_append]
  omega

/-- The name of the delta file of the next segment, or nothing where there is none. -/
def nextDeltaFilename (w : WalSize) (walFilename : Text) : Text :=
  (getDeltaFilenameFor w ((getNextWalFilename w walFilename).getD [])).getD []

theorem nextDeltaFilename_eq_iff (hlast : position s = lastPosition) (g : DeltaGroup w) :
    nextDeltaFilename w s.filename = g.name ↔ g.preceding = some s := by
  have hmod : s.no % 16 = 15 := congrArg Fin.val hlast
  have hnext : getNextWalFilename w s.filename = some (formatWALFileName w s.timeline (s.no + 1)) := by
    rw [getNextWalFilename, s.parseWALFilename_filename]
    rfl
  rw [nextDeltaFilename, hnext, Option.getD_some, DeltaGroup.preceding_eq_some_iff]
  by_cases hvalid : (s.no + 1) / w.xLogSegmentsPerXLogID < 2 ^ 32
  · -- the next segment is the first of its group
    have hgroup := getDeltaFilenameFor_filename (⟨s.timeline, s.no + 1, s.timeline_lt, hvalid⟩ : WalSegment w)
    rw [show formatWALFileName w s.timeline (s.no + 1) =
      (⟨s.timeline, s.no + 1, s.timeline_lt, hvalid⟩ : WalSegment w).filename from rfl, hgroup, Option.getD_some]
    have hfirst : newDeltaNoFromWalSegmentNo (s.no + 1) = s.no + 1 := by
      unfold newDeltaNoFromWalSegmentNo walFileInDelta
      omega
    constructor
    · intro hname
      have hg := DeltaGroup.name_injective hname
      rw [← hg]
      exact ⟨rfl, hfirst⟩
    · rintro ⟨htimeline, hno⟩
      rw [DeltaGroup.name, DeltaGroup.name, htimeline, hno]
      exact congrArg (deltaFilename w s.timeline) hfirst
  · rw [getDeltaFilenameFor, parseWALFilename_of_le (not_lt.mp hvalid)]
    refine iff_of_false (fun hname => g.name_ne_nil hname.symm) ?_
    rintro ⟨-, hno⟩
    exact hvalid (hno ▸ g.first.no_lt)

end Names

theorem preceding_position {g : DeltaGroup w} {s : WalSegment w} (h : g.preceding = some s) :
    position s = lastPosition := by
  obtain ⟨-, hno⟩ := g.preceding_eq_some_iff.mp h
  have haligned : g.first.no % 16 = 0 := g.aligned
  apply Fin.ext
  show s.no % 16 = 15
  omega

theorem exists_following {s : WalSegment w} (hposition : position s = lastPosition) (hno : s.no + 1 < 2 ^ 32) :
    ∃ g : DeltaGroup w, g.preceding = some s := by
  have hmod : s.no % 16 = 15 := congrArg Fin.val hposition
  have haligned : (s.no + 1) % 16 = 0 := by omega
  exact ⟨⟨.ofLt s.timeline (s.no + 1) s.timeline_lt hno, haligned⟩,
    (DeltaGroup.preceding_eq_some_iff _).mpr ⟨rfl, rfl⟩⟩

theorem preceding_group_ne {g : DeltaGroup w} {s : WalSegment w} (h : g.preceding = some s) : group s ≠ g := by
  rintro rfl
  obtain ⟨-, hno⟩ := (group s).preceding_eq_some_iff.mp h
  have hle : (group s).first.no ≤ s.no := Nat.sub_le _ _
  omega

end WalG.Delta
