import WalG.Verify.Integrity
import WalG.Foundation.Table

/-! # The segments of the WAL folder

A name of another length is no segment and is skipped.
-/
namespace WalG.Verify
open Foundation List

inductive NameError where
  | notWalFilename
  | malformed
  deriving DecidableEq, Repr

def byteLength (name : Text) : ℕ := (name.map Char.utf8Size).sum

/-- Next to an error the description is the zero value. -/
def newWalSegmentDescription (w : Wal.WalSize) (name : Text) : WalSegmentDescription × Option NameError :=
  match Wal.parseWALFilename w name with
  | some (timeline, segmentNo) => (⟨.ofNat segmentNo, .ofNat timeline⟩, none)
  | none => (⟨0, 0⟩, some (if byteLength name = 24 then .malformed else .notWalFilename))

/-- The body of the loop over the names. -/
def addFile (w : Wal.WalSize) (walSegments : List WalSegmentDescription) (filename : Text) :
    List WalSegmentDescription :=
  let baseName := trimFileExtension filename
  let described := newWalSegmentDescription w baseName
  if described.2 = some .notWalFilename then walSegments else walSegments.insert described.1

def getSegmentsFromFiles (w : Wal.WalSize) (filenames : List Text) : List WalSegmentDescription :=
  filenames.foldl (addFile w) []

abbrev SegmentsByTimelines := UInt32 → Option WalSegmentsSequence

/-- The body of the loop over the segments. -/
def groupSegment (segmentsByTimelines : SegmentsByTimelines) (segment : WalSegmentDescription) :
    SegmentsByTimelines :=
  Function.update segmentsByTimelines segment.timeline <|
    match segmentsByTimelines segment.timeline with
    | some timelineInfo => some (timelineInfo.addWalSegmentNo segment.number)
    | none => some (newSegmentsSequence segment.timeline segment.number)

def groupSegmentsByTimelines (order : MapOrder WalSegmentDescription) (segments : List WalSegmentDescription) :
    SegmentsByTimelines :=
  (order.order segments).foldl groupSegment fun _ => none

/-- The base name is parsed to the segment. -/
def Names (w : Wal.WalSize) (filename : Text) (segment : WalSegmentDescription) : Prop :=
  Wal.parseWALFilename w (trimFileExtension filename) = some (segment.timeline.toNat, segment.number.toNat)

/-- The base name has the length of a segment's name, but is not parsed. -/
def Malformed (w : Wal.WalSize) (filename : Text) : Prop :=
  byteLength (trimFileExtension filename) = 24 ∧ Wal.parseWALFilename w (trimFileExtension filename) = none

/-- What the loop counts for a file. -/
def Counts (w : Wal.WalSize) (filename : Text) (segment : WalSegmentDescription) : Prop :=
  Names w filename segment ∨ segment = ⟨0, 0⟩ ∧ Malformed w filename

section Files

variable (w : Wal.WalSize)

theorem parsed_eq_iff {name : Text} {timeline no : ℕ}
    (h : Wal.parseWALFilename w name = some (timeline, no)) (segment : WalSegmentDescription) :
    segment = ⟨.ofNat no, .ofNat timeline⟩ ↔ timeline = segment.timeline.toNat ∧ no = segment.number.toNat := by
  obtain ⟨htimeline, hhigh⟩ := Wal.parseWALFilename_eq_some h
  have hno : no < 2 ^ 64 := by
    rw [Nat.div_lt_iff_lt_mul (Wal.xLogSegmentsPerXLogID_pos w)] at hhigh
    exact hhigh.trans_le (Nat.mul_le_mul_left _ (Wal.xLogSegmentsPerXLogID_le w))
  constructor
  · rintro rfl
    exact ⟨(UInt32.toNat_ofNat_of_lt' htimeline).symm, (UInt64.toNat_ofNat_of_lt' hno).symm⟩
  · rintro ⟨rfl, rfl⟩
    rw [UInt32.ofNat_toNat, UInt64.ofNat_toNat]

theorem mem_addFile (walSegments : List WalSegmentDescription) (filename : Text) (segment : WalSegmentDescription) :
    segment ∈ addFile w walSegments filename ↔ segment ∈ walSegments ∨ Counts w filename segment := by
  rw [addFile, Counts, Names, Malformed, newWalSegmentDescription]
  cases hparse : Wal.parseWALFilename w (trimFileExtension filename) with
  | none =>
    by_cases hlength : byteLength (trimFileExtension filename) = 24
    · simp [hlength, or_comm]
    · simp [hlength]
  | some parsed =>
    obtain ⟨timeline, no⟩ := parsed
    have hparsed := parsed_eq_iff w hparse segment
    simp [hparsed, or_comm]

theorem mem_getSegmentsFromFiles (filenames : List Text) (segment : WalSegmentDescription) :
    segment ∈ getSegmentsFromFiles w filenames ↔ ∃ filename ∈ filenames, Counts w filename segment := by
  have hrun (walSegments : List WalSegmentDescription) : segment ∈ filenames.foldl (addFile w) walSegments ↔
      segment ∈ walSegments ∨ ∃ filename ∈ filenames, Counts w filename segment := by
    induction filenames generalizing walSegments with
    | nil => simp
    | cons filename filenames ih => rw [foldl_cons, ih, mem_addFile, exists_mem_cons_iff, or_assoc]
  rw [getSegmentsFromFiles, hrun]
  simp

theorem isSome_groupSegment (segmentsByTimelines : SegmentsByTimelines) (segment : WalSegmentDescription)
    (timeline : UInt32) : (groupSegment segmentsByTimelines segment timeline).isSome = true ↔
      (segmentsByTimelines timeline).isSome = true ∨ segment.timeline = timeline := by
  rw [groupSegment]
  by_cases htimeline : timeline = segment.timeline
  · subst htimeline
    rw [Function.update_self]
    cases segmentsByTimelines segment.timeline <;> simp
  · rw [Function.update_of_ne htimeline]
    simp [Ne.symm htimeline]

theorem isSome_groupSegmentsByTimelines (order : MapOrder WalSegmentDescription)
    (segments : List WalSegmentDescription) (timeline : UInt32) :
    (groupSegmentsByTimelines order segments timeline).isSome = true ↔
      ∃ segment ∈ segments, segment.timeline = timeline := by
  have hrun (met : List WalSegmentDescription) (groups : SegmentsByTimelines) :
      (met.foldl groupSegment groups timeline).isSome = true ↔
        (groups timeline).isSome = true ∨ ∃ segment ∈ met, segment.timeline = timeline := by
    induction met generalizing groups with
    | nil => simp
    | cons segment met ih =>
      rw [foldl_cons, ih, isSome_groupSegment, exists_mem_cons_iff, or_assoc]
  rw [groupSegmentsByTimelines, hrun]
  simp [(order.perm segments).mem_iff]

end Files

/-- The folder's segments are those its names are parsed to. -/
def OnlySegments (w : Wal.WalSize) (filenames : List Text) : Prop :=
  ∀ segment, segment ∈ getSegmentsFromFiles w filenames ↔ ∃ filename ∈ filenames, Names w filename segment

/-- A timeline has a group if a name is parsed to a segment on it. -/
def OnlyTimelines (w : Wal.WalSize) (filenames : List Text) : Prop :=
  ∀ order timeline, (groupSegmentsByTimelines order (getSegmentsFromFiles w filenames) timeline).isSome = true ↔
    ∃ segment, segment.timeline = timeline ∧ ∃ filename ∈ filenames, Names w filename segment

theorem onlyTimelines_of_onlySegments {w : Wal.WalSize} {filenames : List Text} (h : OnlySegments w filenames) :
    OnlyTimelines w filenames := by
  intro order timeline
  rw [isSome_groupSegmentsByTimelines]
  refine exists_congr fun segment => ?_
  rw [h segment, and_comm]

theorem onlySegments_iff (w : Wal.WalSize) (filenames : List Text) : OnlySegments w filenames ↔
    (∀ filename ∈ filenames, ¬ Malformed w filename) ∨ ∃ filename ∈ filenames, Names w filename ⟨0, 0⟩ := by
  constructor
  · intro honly
    refine or_iff_not_imp_left.mpr fun hnot => ?_
    push Not at hnot
    obtain ⟨filename, hmem, hmalformed⟩ := hnot
    rw [← honly, mem_getSegmentsFromFiles]
    exact ⟨filename, hmem, .inr ⟨rfl, hmalformed⟩⟩
  · intro h segment
    rw [mem_getSegmentsFromFiles]
    constructor
    · rintro ⟨filename, hmem, hnames | ⟨rfl, hmalformed⟩⟩
      · exact ⟨filename, hmem, hnames⟩
      · exact h.resolve_left fun hnone => hnone filename hmem hmalformed
    · rintro ⟨filename, hmem, hnames⟩
      exact ⟨filename, hmem, .inl hnames⟩

/-- Exactly the stored segments and their timelines are counted if every base name of 24 bytes is parsed, or the
segment that stands for the others is stored. -/
theorem getSegmentsFromFiles_exact_iff (w : Wal.WalSize) (filenames : List Text) :
    OnlySegments w filenames ∧ OnlyTimelines w filenames ↔
      (∀ filename ∈ filenames, ¬ Malformed w filename) ∨ ∃ filename ∈ filenames, Names w filename ⟨0, 0⟩ := by
  rw [← onlySegments_iff]
  exact ⟨And.left, fun h => ⟨h, onlyTimelines_of_onlySegments h⟩⟩

/-- A segment and a name whose low part is not below the number of segments of an XLog id. -/
def oneMalformed : List Text := ["000000010000000000000001.lz4".toList, "000000010000000000000100.lz4".toList]

theorem names_oneMalformed {filename : Text} (hmem : filename ∈ oneMalformed) {segment : WalSegmentDescription}
    (h : Names .default filename segment) : segment.timeline ≠ 0 := by
  have hparsed : ∀ filename ∈ oneMalformed,
      Wal.parseWALFilename .default (trimFileExtension filename) ∈ [some (1, 1), none] := by decide +kernel
  have hmem' := hparsed filename hmem
  rw [Names] at h
  rw [h] at hmem'
  rintro hzero
  simp [hzero] at hmem'

theorem oneMalformed_counted : getSegmentsFromFiles .default oneMalformed = [⟨0, 0⟩, ⟨1, 1⟩] ∧
    ¬ OnlySegments .default oneMalformed ∧ ¬ OnlyTimelines .default oneMalformed := by
  have hsegments : getSegmentsFromFiles .default oneMalformed = [⟨0, 0⟩, ⟨1, 1⟩] := by decide +kernel
  refine ⟨hsegments, fun honly => ?_, fun honly => ?_⟩
  · obtain ⟨filename, hmem, hnames⟩ := (honly ⟨0, 0⟩).mp (by rw [hsegments]; exact mem_cons_self)
    exact names_oneMalformed hmem hnames rfl
  · obtain ⟨segment, hzero, filename, hmem, hnames⟩ := (honly (.given _) 0).mp <|
      (isSome_groupSegmentsByTimelines _ _ _).mpr ⟨⟨0, 0⟩, by rw [hsegments]; exact mem_cons_self, rfl⟩
    exact names_oneMalformed hmem hnames hzero

end WalG.Verify
