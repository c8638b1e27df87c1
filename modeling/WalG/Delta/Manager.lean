import WalG.Delta.LocationFile
import WalG.Foundation.Table

/-! # The delta files of a running push

Part files and delta files are loaded from the data folder when they are first needed.
-/
namespace WalG.Delta
open Foundation PageFile Backup XLog Wal

/-- The two files of a group, by the name of its delta file. -/
inductive DataFile where
  | delta (deltaFilename : Text)
  | part (deltaFilename : Text)
  deriving DecidableEq

structure DeltaFileManager where
  dataFolder : Table DataFile Bytes
  partFiles : Table Text WalPartFile
  deltaFileWriters : Table Text DeltaFile
  canceledDeltaFiles : List Text

def newDeltaFileManager (dataFolder : Table DataFile Bytes) : DeltaFileManager := ⟨dataFolder, .empty, .empty, []⟩

inductive RecordError where
  | notWalFilename
  | load (e : LoadError)
  | parse (e : ParseError)
  | cantDiscardWalData

inductive CombineError where
  | deltaFileWriterNotFound
  | parse (e : ParseError)

theorem walFileInDelta_pos : 0 < walFileInDelta := by decide

theorem walFileInDelta_pred_lt : walFileInDelta - 1 < walFileInDelta := by decide

def lastPosition : Position := ⟨walFileInDelta - 1, walFileInDelta_pred_lt⟩

def getPositionInDelta (w : WalSize) (walFilename : Text) : Position :=
  match parseWALFilename w walFilename with
  | none => ⟨0, walFileInDelta_pos⟩
  | some (_, logSegNo) => ⟨logSegNo % walFileInDelta, Nat.mod_lt _ walFileInDelta_pos⟩

def getNextWalFilename (w : WalSize) (name : Text) : Option Text :=
  (parseWALFilename w name).map fun (timelineID, logSegNo) => formatWALFileName w timelineID (logSegNo + 1)

/-- The file names are a code of timeline and number that is read back, keeps the order of the numbers on a timeline,
and has the next name for the next number. -/
theorem walFilename_code (w : WalSize) :
    (∀ timeline < 2 ^ 32, ∀ no < 2 ^ 32 * w.xLogSegmentsPerXLogID,
      parseWALFilename w (formatWALFileName w timeline no) = some (timeline, no) ∧
      ∀ no' < 2 ^ 32 * w.xLogSegmentsPerXLogID,
        (textLess (formatWALFileName w timeline no) (formatWALFileName w timeline no') = true ↔ no < no')) ∧
    ∀ name timeline no, parseWALFilename w name = some (timeline, no) →
      formatWALFileName w timeline no = name.map Char.toUpper ∧
      getNextWalFilename w name = some (formatWALFileName w timeline (no + 1)) := by
  have hlt {n : ℕ} (h : n < 2 ^ 32 * w.xLogSegmentsPerXLogID) : n / w.xLogSegmentsPerXLogID < 2 ^ 32 :=
    (Nat.div_lt_iff_lt_mul (xLogSegmentsPerXLogID_pos w)).mpr h
  refine ⟨fun timeline ht no hno => ⟨?_, fun no' hno' => ?_⟩, fun name timeline no h => ⟨?_, ?_⟩⟩
  · exact WalSegment.parseWALFilename_filename ⟨timeline, no, ht, hlt hno⟩
  · exact @WalSegment.textLess_filename_iff w ⟨timeline, no, ht, hlt hno⟩ ⟨timeline, no', ht, hlt hno'⟩ rfl
  · exact WalSegment.formatWALFileName_of_parse h
  · rw [getNextWalFilename, h]
    rfl

namespace DeltaFileManager

variable (w : WalSize) (m : DeltaFileManager)

section Loading

def loadDeltaFileWriter (deltaFilename : Text) : Except LoadError DeltaFile :=
  match m.dataFolder.get (.delta deltaFilename) with
  | none => .ok (newDeltaFile newWalParser)
  | some data => loadDeltaFile data

def loadPartFile (deltaFilename : Text) : Except LoadError WalPartFile :=
  match m.dataFolder.get (.part deltaFilename) with
  | none => .ok newWalPartFile
  | some data => Delta.loadPartFile data

/-- The consumer of block locations appends them to the delta file that is loaded here. -/
def getBlockLocationConsumer (deltaFilename : Text) : Except RecordError DeltaFileManager :=
  match m.deltaFileWriters.load m.loadDeltaFileWriter deltaFilename with
  | .error e => .error (.load e)
  | .ok (_, deltaFileWriters) => .ok { m with deltaFileWriters := deltaFileWriters }

/-- Change a part file, which is loaded first. -/
def updatePartFile (deltaFilename : Text) (update : WalPartFile → WalPartFile) : Except RecordError DeltaFileManager :=
  match m.partFiles.load m.loadPartFile deltaFilename with
  | .error e => .error (.load e)
  | .ok (partFile, partFiles) => .ok { m with partFiles := partFiles.set deltaFilename (update partFile) }

end Loading

section Recording

/-- A location that is sent to the consumer of a delta file. -/
def consumeLocation (deltaFilename : Text) (location : BlockLocation) : DeltaFileManager :=
  match m.deltaFileWriters.get deltaFilename with
  | none => m
  | some deltaFile =>
    { m with
      deltaFileWriters := m.deltaFileWriters.set deltaFilename
        { deltaFile with locations := deltaFile.locations ++ [location] } }

def consume (deltaFilename : Text) (locations : List BlockLocation) : DeltaFileManager :=
  locations.foldl (fun m location => m.consumeLocation deltaFilename location) m

def savePreviousWalTail (walFilename : Text) (tailData : Bytes) : Except RecordError DeltaFileManager :=
  match getDeltaFilenameFor w walFilename with
  | none => .error .notWalFilename
  | some deltaFilename => m.updatePartFile deltaFilename fun partFile =>
    { partFile with
      walTails := Function.update partFile.walTails (getPositionInDelta w walFilename) (some tailData) }

/-- The head of the last segment of a group is also the previous head of the next group. -/
def saveNextWalHead (walFilename : Text) (head : Bytes) : Option RecordError × DeltaFileManager :=
  let updated := m.updatePartFile ((getDeltaFilenameFor w walFilename).getD []) fun partFile =>
    { partFile with walHeads := Function.update partFile.walHeads (getPositionInDelta w walFilename) (some head) }
  match updated with
  | .error e => (some e, m)
  | .ok m =>
    if getPositionInDelta w walFilename = lastPosition then
      let nextDeltaFilename := (getDeltaFilenameFor w ((getNextWalFilename w walFilename).getD [])).getD []
      match m.updatePartFile nextDeltaFilename fun partFile => { partFile with previousWalHead := some head } with
      | .error e => (some e, m)
      | .ok m => (none, m)
    else (none, m)

/-- A recording that failed spoils the group of the segment and that of the next segment. -/
def cancelRecording (walFilename : Text) : DeltaFileManager :=
  match getDeltaFilenameFor w walFilename with
  | none => m
  | some deltaFilename =>
    { m with
      canceledDeltaFiles := deltaFilename ::
        (getDeltaFilenameFor w ((getNextWalFilename w walFilename).getD [])).getD [] :: m.canceledDeltaFiles }

end Recording

section Flushing

def combinePartFile (deltaFilename : Text) (partFile : WalPartFile) : Option CombineError × DeltaFileManager :=
  match m.deltaFileWriters.get deltaFilename with
  | none => (some .deltaFileWriterNotFound, m)
  | some deltaFile =>
    let parser := loadWalParserFromCurrentRecordHead ((partFile.walHeads lastPosition).getD [])
    let m := { m with deltaFileWriters := m.deltaFileWriters.set deltaFilename { deltaFile with walParser := parser } }
    match partFile.combineRecords with
    | .error e => (some (.parse e), m)
    | .ok records => (none, m.consume deltaFilename (extractBlockLocations records))

/-- One loaded part file, and the groups that are complete. -/
def flushPartFile (state : DeltaFileManager × List Text) (deltaFilename : Text) : DeltaFileManager × List Text :=
  match state.1.partFiles.get deltaFilename with
  | none => state
  | some partFile =>
    if deltaFilename ∈ state.1.canceledDeltaFiles then state
    else if partFile.isComplete then
      match state.1.combinePartFile deltaFilename partFile with
      | (none, m) => (m, deltaFilename :: state.2)
      | (some _, m) =>
        ({ m with canceledDeltaFiles := deltaFilename :: m.canceledDeltaFiles }, deltaFilename :: state.2)
    else
      ({ state.1 with dataFolder := state.1.dataFolder.set (.part deltaFilename) partFile.save }, state.2)

def flushPartFiles (order : MapOrder Text) : DeltaFileManager × List Text :=
  (order.order m.partFiles.keys).foldl flushPartFile (m, [])

/-- One loaded delta file, and the files that are uploaded. -/
def flushDeltaFile (completedPartFiles : List Text) (state : DeltaFileManager × List (Text × DeltaFile))
    (deltaFilename : Text) : DeltaFileManager × List (Text × DeltaFile) :=
  match state.1.deltaFileWriters.get deltaFilename with
  | none => state
  | some deltaFile =>
    if deltaFilename ∈ state.1.canceledDeltaFiles then state
    else if deltaFilename ∈ completedPartFiles then
      match saveDeltaFile deltaFile with
      | (_, some _) => state
      | (_, none) => (state.1, state.2 ++ [(deltaFilename, deltaFile)])
    else
      ({ state.1 with dataFolder := state.1.dataFolder.set (.delta deltaFilename) (saveDeltaFile deltaFile).1 },
        state.2)

def flushDeltaFiles (order : MapOrder Text) (completedPartFiles : List Text) :
    DeltaFileManager × List (Text × DeltaFile) :=
  (order.order m.deltaFileWriters.keys).foldl (flushDeltaFile completedPartFiles) (m, [])

/-- Wipe the folder, write the part files and then the delta files. -/
def flushFiles (partOrder deltaOrder : MapOrder Text) : DeltaFileManager × List (Text × DeltaFile) :=
  let flushed := { m with dataFolder := .empty }.flushPartFiles partOrder
  flushed.1.flushDeltaFiles deltaOrder flushed.2

end Flushing

end DeltaFileManager

end WalG.Delta
