import WalG.Delete.Handler
import WalG.Delete.StripName

/-! # Delete commands on a storage

The handler of a storage is built from its sentinel objects: the backups with their increments, the
comparison and the permanent objects.
-/
namespace WalG.Delete
open Foundation Wal

/-- The increment part of a sentinel: the full backup and the direct base. -/
structure IncrementInfo where
  incrementFullName : Text
  incrementFrom : Text
  deriving DecidableEq

structure BackupMetadata where
  isPermanent : Bool
  startLsn : ℕ
  finishLsn : ℕ
  startTime : ℤ
  deriving DecidableEq

/-- Object names relative to the root, and what reading a backup's sentinel and
metadata gives. -/
structure Storage where
  objects : List Text
  lastModified : Text → ℤ
  sentinel : Text → Option (Option IncrementInfo)
  fetchMeta : Text → Option BackupMetadata

def Storage.getBackupSentinelObjects (s : Storage) : List Text :=
  (subFolder baseBackupPath s.objects).filter fun object =>
    '/' ∉ object ∧ sentinelSuffix.isSuffixOf object

/-- The backup names of the sentinel objects. -/
def Storage.getBackups (s : Storage) : List Text :=
  s.getBackupSentinelObjects.map stripRightmostBackupName

/-- The segments of a permanent backup, from the one before its start on. -/
def permanentWalNames (w : WalSize) (timelineID : ℕ) (metadata : BackupMetadata) : List Text :=
  let startWalSegmentNo := newWalSegmentNo w (lsnPred metadata.startLsn)
  let endWalSegmentNo := newWalSegmentNo w (lsnPred metadata.finishLsn)
  (List.range' startWalSegmentNo (endWalSegmentNo + 1 - startWalSegmentNo)).map
    (formatWALFileName w timelineID)

/-- A backup whose metadata cannot be read is passed over. -/
def collectPermanent (w : WalSize) (fetchMeta : Text → Option BackupMetadata) :
    List Text → Except DeleteError (List Text × List Text)
  | [] => .ok ([], [])
  | backupName :: backupNames => do
    let (permanentBackups, permanentWals) ← collectPermanent w fetchMeta backupNames
    match fetchMeta backupName with
    | none => .ok (permanentBackups, permanentWals)
    | some metadata =>
      if !metadata.isPermanent then .ok (permanentBackups, permanentWals)
      else
        match ← parseTimelineFromBackupName backupName with
        | none => .ok (permanentBackups, permanentWals)
        | some timelineID =>
          .ok (backupName :: permanentBackups, permanentWalNames w timelineID metadata ++ permanentWals)

def Storage.getPermanentBackupsAndWals (w : WalSize) (s : Storage) :
    Except DeleteError (List Text × List Text) :=
  collectPermanent w s.fetchMeta s.getBackups

def postgresSegmentNoLess (w : WalSize) (object1 object2 : Text) : Bool :=
  match tryFetchTimelineAndLogSegNo w object1, tryFetchTimelineAndLogSegNo w object2 with
  | some (_, segmentNumber1), some (_, segmentNumber2) => segmentNumber1 < segmentNumber2
  | _, _ => false

def postgresTimelineAndSegmentNoLess (w : WalSize) (object1 object2 : Text) : Bool :=
  match tryFetchTimelineAndLogSegNo w object1, tryFetchTimelineAndLogSegNo w object2 with
  | some (tl1, segNo1), some (tl2, segNo2) => tl1 < tl2 || tl1 = tl2 && segNo1 < segNo2
  | _, _ => false

/-- Objects that are not of a backup are compared by segment number. -/
def makeLessFunc (w : WalSize) (startTimeByBackupName : Text → Option ℤ) (object1 object2 : Text) :
    Bool :=
  let backupName1 := fetchPgBackupName object1
  let backupName2 := fetchPgBackupName object2
  if backupName1 = [] then postgresSegmentNoLess w object1 object2
  else if backupName2 = [] then postgresSegmentNoLess w object1 object2
  else
    match startTimeByBackupName backupName1, startTimeByBackupName backupName2 with
    | some startTime1, some startTime2 => startTime1 < startTime2
    | _, _ => false

/-- The start times, if the metadata of every backup can be read. -/
def Storage.getBackupStartTimeMap (s : Storage) : Option (Text → Option ℤ) :=
  if s.getBackups.all fun name => (s.fetchMeta name).isSome then
    some fun name => if name ∈ s.getBackups then (s.fetchMeta name).map BackupMetadata.startTime else none
  else none

def Storage.makePostgresBackupObject (s : Storage) (startTimeByBackupName : Option (Text → Option ℤ))
    (object : Text) : Except DeleteError BackupObject :=
  let backupName := fetchPgBackupName object
  let time := match startTimeByBackupName with
    | none => s.lastModified (baseBackupPath ++ object)
    | some startTimes => (startTimes backupName).getD 0
  match s.sentinel backupName with
  | none => .error .readError
  | some none => .ok ⟨object, backupName, time, true, [], []⟩
  | some (some info) => .ok ⟨object, backupName, time, false, info.incrementFullName, info.incrementFrom⟩

/-- Ordering by start time falls back to timeline and segment. -/
def Storage.newPostgresDeleteHandler (w : WalSize) (s : Storage) (useSentinelTime : Bool) :
    Except DeleteError DeleteHandler := do
  let (permanentBackups, permanentWals) ← s.getPermanentBackupsAndWals w
  let startTimes := if useSentinelTime then s.getBackupStartTimeMap else none
  let lessFunc := match startTimes with
    | none => postgresTimelineAndSegmentNoLess w
    | some startTimes => makeLessFunc w startTimes
  let backups ← s.getBackupSentinelObjects.mapM (s.makePostgresBackupObject startTimes)
  .ok ⟨backups, lessFunc, isPermanent (· ∈ permanentBackups) (· ∈ permanentWals)⟩

namespace DeleteHandler

variable (h : DeleteHandler) (sort : SliceSort BackupObject)

/-- The target of a command that ends in a deletion of everything before it. -/
def findBeforeTarget : DeleteCommand → Except DeleteError (Option BackupObject)
  | .before modifier (.time timeLine) => h.findTargetBeforeTime sort timeLine modifier
  | .before modifier (.name name) => (h.findTargetBeforeName sort name modifier).map some
  | .retain modifier retentionCount => (h.findTargetRetain sort retentionCount modifier).map some
  | .retainAfter modifier retentionCount (.time timeLine) =>
    .ok (h.findTargetRetainAfterTime sort retentionCount timeLine modifier)
  | .retainAfter modifier retentionCount (.name name) =>
    h.findTargetRetainAfterName sort retentionCount name modifier
  | .target _ _ => .ok none

/-- The objects handed to deletion; `none` while the search for dependants runs. -/
def handleDeleteTarget (objects : List Text) (findFull : Bool) (targetName : Text) :
    Option (Except DeleteError (List Text)) :=
  match h.backups.find? (·.backupName = targetName) with
  | none => some (.ok [])
  | some target =>
    if findFull then some (h.deleteTargets objects (h.findRelatedBackups target))
    else (h.findDependantBackups target).map (h.deleteTargets objects)

def run (objects : List Text) : DeleteCommand → Option (Except DeleteError (List Text))
  | .target findFull targetName => h.handleDeleteTarget objects findFull targetName
  | command =>
    match h.findBeforeTarget sort command with
    | .error e => some (.error e)
    | .ok none => some (.ok [])
    | .ok (some target) => some (h.deleteBeforeTarget objects target)

end DeleteHandler

end WalG.Delete
