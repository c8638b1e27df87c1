import WalG.Foundation.SliceSort
import WalG.Mongo.Archive

/-! # Purging the oplog

A backup writes the timestamps of its node before and after it to its sentinel.
-/
namespace WalG.Mongo
open Foundation

structure NodeMeta where
  lastTS : Timestamp
  lastMajTS : Timestamp
  deriving DecidableEq

structure MongoMeta where
  before : NodeMeta
  after : NodeMeta
  deriving DecidableEq

/-- The zero time, in nanoseconds since the epoch. -/
def zeroTime : ℤ := -62135596800 * 10 ^ 9

/-- The second a time is in. -/
def unix (time : ℤ) : ℤ := time / 10 ^ 9

theorem unix_le_unix {s t : ℤ} (h : s ≤ t) : unix s ≤ unix t := Int.ediv_le_ediv (by norm_num) h

structure BackupMeta where
  mongo : MongoMeta := ⟨⟨0, 0⟩, ⟨0, 0⟩⟩
  dataSize : ℕ := 0
  permanent : Bool := false
  user : Option Text := none
  startTime : ℤ := zeroTime
  finishTime : ℤ := zeroTime
  deriving DecidableEq

/-- A backup sentinel. The constructor leaves the name to the reader. -/
structure Backup where
  backupName : Text := []
  startLocalTime : ℤ := zeroTime
  finishLocalTime : ℤ := zeroTime
  userData : Option Text := none
  mongoMeta : MongoMeta := ⟨⟨0, 0⟩, ⟨0, 0⟩⟩
  permanent : Bool := false
  dataSize : ℕ := 0
  deriving DecidableEq

inductive MetaError
  | initBackupMongo
  | backupSize
  | finalizeBackupMongo
  deriving DecidableEq

structure MongoMetaConstructor where
  backupMeta : BackupMeta
  mongo : MongoMeta
  permanent : Bool

namespace MongoMetaConstructor

def newBackupMongoMetaConstructor (permanent : Bool) : MongoMetaConstructor :=
  ⟨{}, ⟨⟨0, 0⟩, ⟨0, 0⟩⟩, permanent⟩

def init (m : MongoMetaConstructor) (lastWriteTS : Option NodeMeta) (now : ℤ) (user : Option Text) :
    Except MetaError MongoMetaConstructor :=
  match lastWriteTS with
  | none => .error .initBackupMongo
  | some node =>
    let mongo := { m.mongo with before := node }
    let backupMeta := { startTime := now, mongo := mongo, permanent := m.permanent, user := user }
    .ok { m with mongo := mongo, backupMeta := backupMeta }

def finalize (m : MongoMetaConstructor) (folderSize : Option ℕ) (lastWriteTS : Option NodeMeta) (now : ℤ) :
    Except MetaError MongoMetaConstructor :=
  match folderSize with
  | none => .error .backupSize
  | some dataSize =>
    match lastWriteTS with
    | none => .error .finalizeBackupMongo
    | some node =>
      .ok { m with
        mongo := { m.mongo with after := node }
        backupMeta := { m.backupMeta with finishTime := now, dataSize := dataSize } }

def metaInfo (m : MongoMetaConstructor) : Backup where
  startLocalTime := m.backupMeta.startTime
  finishLocalTime := m.backupMeta.finishTime
  userData := m.backupMeta.user
  mongoMeta := m.backupMeta.mongo
  dataSize := m.backupMeta.dataSize
  permanent := m.backupMeta.permanent

end MongoMetaConstructor

/-- What a backup meets while it is made: the node before and after it, the clock, and
the name it is stored under. The majority timestamp does not go back. -/
structure BackupRun where
  name : Text
  before : NodeMeta
  after : NodeMeta
  startTime : ℤ
  finishTime : ℤ
  user : Option Text
  permanent : Bool
  dataSize : ℕ
  name_ne : name ≠ []
  majority_le : before.lastMajTS ≤ after.lastMajTS

namespace BackupRun

def uploadBackup (r : BackupRun) : Except MetaError Backup := do
  let m := MongoMetaConstructor.newBackupMongoMetaConstructor r.permanent
  let m ← m.init (some r.before) r.startTime r.user
  let m ← m.finalize (some r.dataSize) (some r.after) r.finishTime
  .ok m.metaInfo

/-- The sentinel has the node before the backup, but not the one after it. -/
def sentinel (r : BackupRun) : Backup where
  startLocalTime := r.startTime
  finishLocalTime := r.finishTime
  userData := r.user
  mongoMeta := ⟨r.before, ⟨0, 0⟩⟩
  dataSize := r.dataSize
  permanent := r.permanent

end BackupRun

/-- The sentinel as it is read back. -/
def backupMeta (name : Text) (sentinel : Backup) : Backup :=
  if sentinel.backupName = [] then { sentinel with backupName := name } else sentinel

/-- The oplog archives and the backups under their names. -/
structure MongoStorage where
  archives : List Archive
  runs : List BackupRun
  names_nodup : (runs.map BackupRun.name).Nodup

inductive PurgeError
  | fetchSentinel (name : Text)
  | noBackups
  | emptyBackupList
  | noBackupsNewerThanRetainPoint
  | notSorted
  deriving DecidableEq

def MongoStorage.fetchSentinel (s : MongoStorage) (name : Text) : Except PurgeError Backup :=
  match s.runs.find? fun r => r.name = name with
  | none => .error (.fetchSentinel name)
  | some r => r.uploadBackup.mapError fun _ => .fetchSentinel name

def finishAfter (b c : Backup) : Bool := c.finishLocalTime < b.finishLocalTime

def MongoStorage.loadBackups (s : MongoStorage) (sort : SliceSort Backup) (names : List Text) :
    Except PurgeError (List Backup) := do
  let backups ← names.mapM fun name => do
    let sentinel ← s.fetchSentinel name
    .ok (backupMeta name sentinel)
  .ok (sort.sort finishAfter backups)

def timestampInInterval (ts begin_ end_ : Timestamp) : Bool :=
  (lessTS begin_ ts && lessTS ts end_) || ts == begin_ || ts == end_

def archInBackup (arch : Archive) (backup : Backup) : Bool :=
  let backupStart := backup.mongoMeta.before.lastMajTS
  let backupEnd := backup.mongoMeta.after.lastMajTS
  timestampInInterval arch.startTS backupStart backupEnd ||
    timestampInInterval arch.endTS backupStart backupEnd ||
    timestampInInterval backupStart arch.startTS arch.endTS ||
    timestampInInterval backupEnd arch.startTS arch.endTS

def firstOverlappingBackupForArch (arch : Archive) : List Backup → Backup
  | [] => {}
  | backup :: backups =>
    if archInBackup arch backup then backup else firstOverlappingBackupForArch arch backups

/-- The loop of `OldestBackupAfterTime` over the backups after the first. -/
def oldestBackupLoop (retainAfterTS : ℤ) : Backup → ℤ → List Backup → Except PurgeError Backup
  | oldestBackup, _, [] => .ok oldestBackup
  | oldestBackup, fromRetain, curBackup :: backups =>
    let curFromRetain := unix curBackup.finishLocalTime - retainAfterTS
    if curFromRetain > fromRetain then .error .notSorted
    else if curFromRetain < 0 then .ok oldestBackup
    else oldestBackupLoop retainAfterTS curBackup curFromRetain backups

def oldestBackupAfterTime (backups : List Backup) (after : ℤ) : Except PurgeError Backup :=
  match backups with
  | [] => .error .emptyBackupList
  | oldestBackup :: backups =>
    let retainAfterTS := unix after
    let fromRetain := unix oldestBackup.finishLocalTime - retainAfterTS
    if fromRetain < 0 then .error .noBackupsNewerThanRetainPoint
    else oldestBackupLoop retainAfterTS oldestBackup fromRetain backups

def selectPurgingOplogArchives (archives : List Archive) (backups : List Backup) (retainAfterTS : Timestamp) :
    List Archive :=
  archives.filter fun arch =>
    !lessTS retainAfterTS arch.endTS && firstOverlappingBackupForArch arch backups == {}

/-- The archives that are given to the deletion. -/
def handleOplogPurge (s : MongoStorage) (sort : SliceSort Backup) (retainAfter : ℤ) (dryRun : Bool) :
    Except PurgeError (List Archive) := do
  if s.archives = [] then .ok []
  else
    let backups ← s.loadBackups sort (s.runs.map BackupRun.name)
    if backups = [] then .error .noBackups
    else
      let pitrBackup ← oldestBackupAfterTime backups retainAfter
      let purgeArchives := selectPurgingOplogArchives s.archives backups pitrBackup.mongoMeta.before.lastMajTS
      .ok (if dryRun then [] else purgeArchives)

end WalG.Mongo
