import WalG.Delta.GroupFiles
import WalG.XLog.SwitchedSegments

/-! # Recording segment by segment and parsing the stream

Whatever the order in which the segments of a group are recorded, in the end its delta file has the
locations that one parser finds that runs over the whole stream, and the state of that parser.
-/
namespace WalG.Delta
open Foundation PageFile Backup XLog Wal DeltaFileManager List

variable {w : WalSize} {wal : ℕ → WalStream} {g : DeltaGroup w} {m : DeltaFileManager}
  {segments located : List (WalSegment w)}

/-- The delta file of a complete group. -/
def combinedDelta (wal : ℕ → WalStream) (g : DeltaGroup w) (located : List (WalSegment w)) : DeltaFile :=
  ⟨(storedDelta wal g located).locations ++ extractBlockLocations (crossingRecords wal g),
    loadWalParserFromCurrentRecordHead (headOf wal (g.segment lastPosition))⟩

theorem combinePartFile_stored (hdelta : m.deltaFileWriters.get g.name = some (storedDelta wal g located))
    (hcomplete : (storedPart wal g segments).isComplete)
    (hsupplies : ∀ s, g.preceding = some s → (wal s.timeline).Supplies s.no) :
    ∃ m', m.combinePartFile g.name (storedPart wal g segments) = (none, m') ∧
      m'.deltaFileWriters.get g.name = some (combinedDelta wal g located) := by
  obtain ⟨-, hall⟩ := storedPart_isComplete_iff.mp hcomplete
  have hhead : (storedPart wal g segments).walHeads lastPosition = some (headOf wal (g.segment lastPosition)) :=
    if_pos (hall lastPosition).1
  rw [combinePartFile, hdelta, combineRecords_storedPart hcomplete hsupplies, hhead]
  refine ⟨_, rfl, ?_⟩
  rw [(consume_appends _ _ _).get_self, Table.get_set_self]
  rfl

/-- A complete group's delta file has the locations of all records that end in its segments. -/
theorem mem_combinedDelta_iff (hcomplete : (storedPart wal g segments).isComplete)
    (hlocated : ∀ id, g.segment id ∈ located) (location : BlockLocation) :
    location ∈ (combinedDelta wal g located).locations ↔ ∃ id, location ∈ endingLocations wal (g.segment id) := by
  obtain ⟨-, hall⟩ := storedPart_isComplete_iff.mp hcomplete
  simp only [combinedDelta, mem_append, mem_storedDelta_iff, mem_crossingRecords_iff, hlocated, true_and,
    fun id => endingLocations_eq (hall id).2]
  rw [← exists_or]
  exact exists_congr fun id => or_comm

/-- The locations that a parser in step with the writer finds in a group. -/
theorem mem_completed_iff (location : BlockLocation) :
    location ∈ extractBlockLocations
        (((wal g.first.timeline).completed g.first.no walFileInDelta).map RawRecord.record) ↔
      ∃ id, location ∈ endingLocations wal (g.segment id) := by
  simp only [WalStream.completed, endingLocations, extractBlockLocations, mem_flatMap, mem_map, mem_range'_1]
  constructor
  · rintro ⟨record, ⟨raw, ⟨n, ⟨hle, hlt⟩, hraw⟩, rfl⟩, hlocation⟩
    refine ⟨⟨n - g.first.no, by omega⟩, raw.record, ⟨raw, ?_, rfl⟩, hlocation⟩
    rw [show (g.segment _).no = g.first.no + (n - g.first.no) from rfl, Nat.add_sub_cancel' hle]
    exact hraw
  · rintro ⟨id, record, ⟨raw, hraw, rfl⟩, hlocation⟩
    have hid := id.isLt
    exact ⟨raw.record, ⟨raw, ⟨(g.segment id).no, ⟨Nat.le_add_right _ _, Nat.add_lt_add_left hid _⟩, hraw⟩, rfl⟩,
      hlocation⟩

theorem Tracks.new {folder : Table DataFile Bytes} (hpart : folder.get (.part g.name) = none)
    (hdelta : folder.get (.delta g.name) = none) : Tracks wal g [] [] [] (newDeltaFileManager folder) :=
  .start (loadPartFile_absent wal g hpart) (loadDeltaFileWriter_absent wal g hdelta)

theorem Tracks.empty (wal : ℕ → WalStream) (g : DeltaGroup w) : Tracks wal g [] [] [] (newDeltaFileManager .empty) :=
  Tracks.new rfl rfl

/-- A parser that starts with the segment before a group is in step with the writer in the group. -/
theorem parsePages_group {s : WalSegment w} (hs : g.preceding = some s) (hsupplies : (wal s.timeline).Supplies s.no) :
    ∃ before parser₀ outputs, newWalParser.parsePages ((wal s.timeline).segment s.no).pages = (.ok before, parser₀) ∧
      parser₀.parsePages ((wal s.timeline).pages (s.no + 1) walFileInDelta) =
        (.ok outputs, ((wal s.timeline).crossing (s.no + 1 + walFileInDelta)).parser 0) ∧
      ∀ location, (∃ output ∈ outputs, location ∈ extractBlockLocations output.records) ↔
        ∃ id, location ∈ endingLocations wal (g.segment id) := by
  obtain ⟨htimeline, hno⟩ := g.preceding_eq_some_iff.mp hs
  obtain ⟨before, parser₀, hbefore, -, -, hstep⟩ := (wal s.timeline).parsePages_segment s.no
  obtain ⟨outputs, houtputs, hcollected⟩ := (wal s.timeline).parsePages_pages (s.no + 1) walFileInDelta
  refine ⟨before, parser₀, outputs, hbefore, by rw [hstep hsupplies, houtputs], fun location => ?_⟩
  rw [← mem_completed_iff, htimeline, hno, ← hcollected.records_eq]
  simp only [extractBlockLocations, mem_flatMap]
  constructor
  · rintro ⟨output, houtput, record, hrecord, hlocation⟩
    exact ⟨record, ⟨output, houtput, hrecord⟩, hlocation⟩
  · rintro ⟨record, ⟨output, houtput, hrecord⟩, hlocation⟩
    exact ⟨output, houtput, record, hrecord, hlocation⟩

/-- The saved head of the last segment gives back a parser in step with the writer. -/
theorem combinedDelta_save (located : List (WalSegment w)) (h : (tailOf wal (g.segment lastPosition)).isSome) :
    ∃ data, (combinedDelta wal g located).walParser.save = .ok data ∧
      loadWalParser (.ofBytes data) =
        .ok (((wal g.first.timeline).crossing (g.first.no + walFileInDelta)).parser 0) := by
  have hsupplies : (wal g.first.timeline).Supplies (g.first.no + 15) := .inr (tailOf_isSome_iff.mp h)
  have hsave : (combinedDelta wal g located).walParser.save = .ok
      (leBytes 4 (headOf wal (g.segment lastPosition)).length ++ headOf wal (g.segment lastPosition)) := by
    simp [combinedDelta, WalParser.save, loadWalParserFromCurrentRecordHead]
  refine ⟨_, hsave, ?_⟩
  rw [loadWalParser_save hsave ((wal g.first.timeline).head_length_lt _)]
  show Except.ok (WalParser.setCurrentRecordData ((wal g.first.timeline).head (g.first.no + 15))) = _
  rw [hsupplies.head_eq, setCurrentRecordData_head]
  rfl

/-- Any segments are recorded in any order into a folder without files of the group. When the part file of the group is
complete, the delta file gets the locations that one parser returns for the group when it runs on from the segment
before it, and what is saved of the file is read back with that parser's state. The zero location is the mark of the
end in a delta file. -/
theorem recording_equals_parsing {folder : Table DataFile Bytes} {order : List (WalSegment w)} {p : WalPartFile}
    {s : WalSegment w} (hpart : folder.get (.part g.name) = none) (hdelta : folder.get (.delta g.name) = none)
    (hrun : RecordsSegments wal order (newDeltaFileManager folder) m) (hget : m.partFiles.get g.name = some p)
    (hcomplete : p.isComplete) (hs : g.preceding = some s) (hsupplies : (wal s.timeline).Supplies s.no) :
    ∃ m' deltaFile before parser₀ outputs parser,
      m.combinePartFile g.name p = (none, m') ∧ m'.deltaFileWriters.get g.name = some deltaFile ∧
      newWalParser.parsePages ((wal s.timeline).segment s.no).pages = (.ok before, parser₀) ∧
      parser₀.parsePages ((wal s.timeline).pages (s.no + 1) walFileInDelta) = (.ok outputs, parser) ∧
      (∀ location, location ∈ deltaFile.locations ↔
        ∃ output ∈ outputs, location ∈ extractBlockLocations output.records) ∧
      (∃ data, deltaFile.walParser.save = .ok data ∧ loadWalParser (.ofBytes data) = .ok parser) ∧
      (terminalLocation ∉ deltaFile.locations →
        ∃ data, saveDeltaFile deltaFile = (data, none) ∧ loadDeltaFile data = .ok ⟨deltaFile.locations, parser⟩) := by
  have htracks : Tracks wal g [] [] order m := (Tracks.new hpart hdelta).run hrun
  obtain rfl := htracks.part_eq hget
  rw [nil_append] at hcomplete ⊢
  obtain ⟨-, hall⟩ := storedPart_isComplete_iff.mp hcomplete
  obtain ⟨htimeline, hno⟩ := g.preceding_eq_some_iff.mp hs
  have hloaded := htracks.delta ⟨_, (hall lastPosition).1, g.group_segment _⟩
  obtain ⟨m', hcombine, hdelta'⟩ := combinePartFile_stored hloaded hcomplete fun t ht => by
    rw [hs] at ht
    rwa [← Option.some.inj ht]
  obtain ⟨before, parser₀, outputs, hbefore, houtputs, hlocations⟩ := parsePages_group hs hsupplies
  obtain ⟨data, hsave, hload⟩ := combinedDelta_save order (hall lastPosition).2
  rw [htimeline, hno] at hload
  refine ⟨m', _, before, parser₀, outputs, _, hcombine, hdelta', hbefore, houtputs, fun location => ?_,
    ⟨data, hsave, hload⟩, loadDeltaFile_of_save hsave hload⟩
  rw [hlocations]
  exact mem_combinedDelta_iff hcomplete (fun id => (hall id).1) location

section Sample

def switchData : Bytes := leBytes 4 24 ++ leBytes 12 0 ++ [0x40, 0, 0, 0] ++ leBytes 4 7

theorem switchData_parses : parseXLogRecordFromBytes switchData = .ok ⟨⟨24, 0, 0, 0x40, 0, 7⟩, 0, 0, [], []⟩ := by
  decide +kernel

theorem switchData_length : 24 = switchData.length := by decide

def switchRecord : RawRecord := ⟨switchData, _, switchData_parses, switchData_length⟩

/-- The block that is changed once in the sample. -/
def changedBlock : BlockLocation := ⟨⟨1663, 1, 2⟩, 3⟩

def changeData : Bytes :=
  leBytes 4 48 ++ leBytes 12 0 ++ [0, 10, 0, 0] ++ leBytes 4 7 ++ [0, 0, 0, 0] ++ writeLocation changedBlock ++
    [255, 2, 1, 1]

theorem changeData_parses : parseXLogRecordFromBytes changeData =
    .ok ⟨⟨48, 0, 0, 0, 10, 7⟩, 2, 0, [⟨⟨0, 0, 0, ⟨0, 0, 0, 0⟩, changedBlock⟩, [], []⟩], [1, 1]⟩ := by
  decide +kernel

theorem changeData_length : 48 = changeData.length := by decide

def changeRecord : RawRecord := ⟨changeData, _, changeData_parses, changeData_length⟩

theorem switchRecord_isWALSwitch : switchRecord.record.isWALSwitch = true := by decide

theorem idle_fits : alignedLength ([] ++ [switchRecord]) ≤ walPageSize - 40 := by decide

theorem idle_not_switch : ∀ raw ∈ ([] : List RawRecord), raw.record.isWALSwitch = false := by simp

def idleSegment : ShortSegment := ⟨[], switchRecord, idle_not_switch, switchRecord_isWALSwitch, idle_fits⟩

theorem busy_fits : alignedLength ([changeRecord] ++ [switchRecord]) ≤ walPageSize - 40 := by decide

theorem busy_not_switch : ∀ raw ∈ [changeRecord], raw.record.isWALSwitch = false := by
  decide

def busySegment : ShortSegment := ⟨[changeRecord], switchRecord, busy_not_switch, switchRecord_isWALSwitch, busy_fits⟩

theorem sampleMagic_pos : 0 < 0xD106 := by decide

theorem sampleMagic_lt : 0xD106 < 2 ^ 16 := by decide

def sampleFrame : PageFrame := ⟨0xD106, sampleMagic_pos, sampleMagic_lt, 1, 0, false, none, false⟩

/-- Seventeen segments from number 15 on, and one change in the second of them. -/
def sampleWal : ℕ → WalStream :=
  fun _ => .ofShortSegments sampleFrame 15 (idleSegment :: busySegment :: replicate 15 idleSegment)

theorem sixteen_aligned : 16 % walFileInDelta = 0 := by decide

/-- The group of segments 16 to 31. -/
def sampleGroup : DeltaGroup .default := ⟨.ofWords 1 16, sixteen_aligned⟩

def samplePreceding : WalSegment .default := .ofWords 1 15

theorem sampleGroup_preceding : sampleGroup.preceding = some samplePreceding := by decide

theorem sampleWal_segment (id : Position) :
    (sampleWal (sampleGroup.segment id).timeline).crossing (sampleGroup.segment id).no = .boundary ∧
      ((sampleWal (sampleGroup.segment id).timeline).segment (sampleGroup.segment id).no).completed =
        if id.val = 0 then [changeRecord, switchRecord] else [switchRecord] := by
  have hid : id.val < 16 := id.isLt
  obtain ⟨hcrossing, hcompleted⟩ := WalStream.segment_ofShortSegments sampleFrame 15
    (idleSegment :: busySegment :: replicate 15 idleSegment) (show id.val + 1 < 17 by omega)
  have hno : 15 + (id.val + 1) = (sampleGroup.segment id).no := by
    show 15 + (id.val + 1) = 16 + id.val
    omega
  rw [hno] at hcrossing hcompleted
  refine ⟨hcrossing, hcompleted.trans ?_⟩
  obtain ⟨n, hn⟩ := id
  cases n with
  | zero => rfl
  | succ n =>
    rw [getElem_cons_succ, getElem_cons_succ, getElem_replicate]
    rfl

theorem sample_complete {segments : List (WalSegment .default)} (hpreceding : samplePreceding ∈ segments)
    (hall : ∀ id, sampleGroup.segment id ∈ segments) : (storedPart sampleWal sampleGroup segments).isComplete := by
  refine storedPart_isComplete_iff.mpr ⟨⟨_, hpreceding, sampleGroup_preceding⟩, fun id => ⟨hall id, ?_⟩⟩
  rw [tailOf_isSome_iff, (sampleWal_segment id).2]
  split_ifs <;> exact cons_ne_nil _ _

theorem sampleWal_preceding : (sampleWal samplePreceding.timeline).crossing samplePreceding.no = .boundary ∧
      ((sampleWal samplePreceding.timeline).segment samplePreceding.no).completed = [switchRecord] :=
  WalStream.segment_ofShortSegments sampleFrame 15 (idleSegment :: busySegment :: replicate 15 idleSegment)
    (show 0 < 17 by decide)

theorem sample_supplies : (sampleWal samplePreceding.timeline).Supplies samplePreceding.no := by
  rw [WalStream.Supplies, sampleWal_preceding.1]
  exact .inl rfl

/-- The segment before the group, and those of the group in their order. -/
def sampleOrder : List (WalSegment .default) :=
  samplePreceding :: (finRange walFileInDelta).map sampleGroup.segment

theorem sample_following {s : WalSegment .default} (hs : s ∈ sampleOrder) (hposition : position s = lastPosition) :
    ∃ g : DeltaGroup .default, g.preceding = some s := by
  apply exists_following hposition
  rcases mem_cons.mp hs with rfl | hs
  · decide
  · obtain ⟨id, -, rfl⟩ := mem_map.mp hs
    have hid : id.val < 16 := id.isLt
    show 16 + id.val + 1 < 2 ^ 32
    omega

theorem recording_equals_parsing_sample : ∃ m p m' deltaFile,
    RecordsSegments sampleWal sampleOrder (newDeltaFileManager .empty) m ∧
      m.partFiles.get sampleGroup.name = some p ∧ p.isComplete ∧
      m.combinePartFile sampleGroup.name p = (none, m') ∧
        m'.deltaFileWriters.get sampleGroup.name = some deltaFile := by
  obtain ⟨m, hrun⟩ :=
    exists_recordsSegments (fun g => ⟨[], [], Tracks.empty sampleWal g⟩) sampleOrder fun s => sample_following
  have htracks : Tracks sampleWal sampleGroup [] [] sampleOrder m := (Tracks.empty _ _).run hrun
  have hpreceding : samplePreceding ∈ sampleOrder := mem_cons_self
  have hall (id : Position) : sampleGroup.segment id ∈ sampleOrder :=
    mem_cons_of_mem _ (mem_map_of_mem (mem_finRange id))
  obtain ⟨p, hp⟩ := Option.isSome_iff_exists.mp (htracks.part_loaded.mpr ⟨_, hpreceding, .inr sampleGroup_preceding⟩)
  have hcomplete : p.isComplete := by
    rw [htracks.part_eq hp]
    exact sample_complete hpreceding hall
  obtain ⟨m', deltaFile, -, -, -, -, hcombine, hdelta, -⟩ :=
    recording_equals_parsing rfl rfl hrun hp hcomplete sampleGroup_preceding sample_supplies
  exact ⟨m, p, m', deltaFile, hrun, hp, hcomplete, hcombine, hdelta⟩

end Sample

end WalG.Delta
