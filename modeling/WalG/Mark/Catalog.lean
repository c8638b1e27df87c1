import WalG.Foundation.AncestorClosed
import WalG.Delete.ObjectNames

/-! # Pushing and marking backups

The catalog holds what the sentinels and the metadata say about the stored backups.
-/
namespace WalG.Mark
open Foundation Wal Delete

structure IncrementDetails where
  incrementFrom : Text
  incrementFullName : Text
  incrementCount : ℕ
  deriving DecidableEq

structure BackupEntry where
  name : Text
  backupStartLSN : Option ℕ
  backupFinishLSN : ℕ
  increment : Option IncrementDetails
  isPermanent : Bool
  deriving DecidableEq

inductive MarkError where
  | metadataNotFound
  | backupHasPermanentBackupInFuture
  deriving DecidableEq, Repr

section Marking

variable (backups : List BackupEntry)

def fetch (backupName : Text) : Option BackupEntry := backups.find? (·.name = backupName)

/-- The impermanent backups of the chain, beginning from the full one; `none` if
the chain is longer than the given bound. -/
def getBackupsToMarkPermanent : ℕ → Text → Option (Except MarkError (List Text))
  | 0, _ => none
  | rounds + 1, backupName =>
    match fetch backups backupName with
    | none => some (.error .metadataNotFound)
    | some metadata =>
      let backupsToMark := if metadata.isPermanent then [] else [metadata.name]
      match metadata.increment with
      | none => some (.ok backupsToMark)
      | some details =>
        (getBackupsToMarkPermanent rounds details.incrementFrom).map fun previous =>
          previous.map (· ++ backupsToMark)

def getPermanentBackups : List Text :=
  (backups.filter BackupEntry.isPermanent).map BackupEntry.name

/-- The increments made from a backup. -/
def getGraphFromBaseToIncrement (backupName : Text) : List Text :=
  (backups.filter fun b =>
    b.increment.map IncrementDetails.incrementFrom = some backupName).map BackupEntry.name

def backupHasPermanentInFuture (reverseLinks : Text → List Text) (backupName : Text)
    (permanentBackups : List Text) : Bool :=
  (reverseLinks backupName).any (· ∈ permanentBackups)

def getBackupsToMarkImpermanent (backupName : Text) : Except MarkError (List Text) :=
  match fetch backups backupName with
  | none => .error .metadataNotFound
  | some metadata =>
    let permanentBackups := (getPermanentBackups backups).filter (· ≠ backupName)
    if backupHasPermanentInFuture (getGraphFromBaseToIncrement backups) backupName permanentBackups then
      .error .backupHasPermanentBackupInFuture
    else if metadata.isPermanent then .ok [metadata.name]
    else .ok []

def getBackupsToMark (backupName : Text) (toPermanent : Bool) : Option (Except MarkError (List Text)) :=
  if toPermanent then getBackupsToMarkPermanent backups backups.length backupName
  else some (getBackupsToMarkImpermanent backups backupName)

end Marking

/-- The metadata after a write to the one with this name. -/
def BackupEntry.write (isPermanent : Bool) (backupName : Text) (b : BackupEntry) : BackupEntry :=
  if b.name = backupName then { b with isPermanent := isPermanent } else b

@[simp]
theorem BackupEntry.write_name (isPermanent : Bool) (backupName : Text) (b : BackupEntry) :
    (b.write isPermanent backupName).name = b.name := by
  rw [write]
  split_ifs <;> rfl

@[simp]
theorem BackupEntry.write_increment (isPermanent : Bool) (backupName : Text) (b : BackupEntry) :
    (b.write isPermanent backupName).increment = b.increment := by
  rw [write]
  split_ifs <;> rfl

def setIsPermanent (isPermanent : Bool) (backups : List BackupEntry) (backupName : Text) :
    List BackupEntry :=
  backups.map (BackupEntry.write isPermanent backupName)

/-- All of the writes, or only the first ones if the run is cut off. -/
def performed (cut : Option ℕ) (names : List Text) : List Text :=
  match cut with
  | none => names
  | some writes => names.take writes

def markBackup (backups : List BackupEntry) (backupName : Text) (toPermanent : Bool) (cut : Option ℕ) :
    Option (Except MarkError (List BackupEntry)) :=
  (getBackupsToMark backups backupName toPermanent).map fun backupsToMark =>
    backupsToMark.map fun names => (performed cut names).foldl (setIsPermanent toPermanent) backups

/-- What the configuration, the arguments and the database say about a push. The
selector has found a backup, or there is none. -/
structure PushArguments where
  isPermanent : Bool
  isFullBackup : Bool
  maxDeltas : ℕ
  fromFull : Bool
  deltaBase : Option Text
  walFileName : Text
  startLSN : ℕ
  endLSN : ℕ

inductive PushError where
  | sentinelNotFound
  | nilStartLSN
  | backupFromFuture
  deriving DecidableEq, Repr

variable (backups : List BackupEntry) (args : PushArguments)

/-- The base of the new backup with the number of the increment, if it is to be
a delta. -/
def configureDeltaBackup : Except PushError (Option (BackupEntry × ℕ)) :=
  if args.maxDeltas = 0 then .ok none
  else
    match args.deltaBase with
    | none => .ok none
    | some previousBackupName =>
      match fetch backups previousBackupName with
      | none => .error .sentinelNotFound
      | some previousBackup =>
        let incrementCount := match previousBackup.increment with
          | some details => details.incrementCount + 1
          | none => 1
        if args.maxDeltas < incrementCount then .ok none
        else if previousBackup.backupStartLSN = none then .ok none
        else if !args.isPermanent && !args.fromFull && previousBackup.isPermanent then .ok none
        else if args.fromFull then
          let fullName := match previousBackup.increment with
            | some details => details.incrementFullName
            | none => previousBackupName
          match fetch backups fullName with
          | none => .error .sentinelNotFound
          | some fullBackup =>
            if fullBackup.backupStartLSN = none then .error .nilStartLSN
            else .ok (some (fullBackup, incrementCount))
        else .ok (some (previousBackup, incrementCount))

def stripWalFileName (path : Text) : Text :=
  (findTimelineAndLogSegNo path).getD (List.replicate 24 'Z')

/-- What the sentinel and the metadata of the new backup say. -/
def newBackupEntry : Option (BackupEntry × ℕ) → BackupEntry
  | none => ⟨backupNamePrefix ++ args.walFileName, some args.startLSN, args.endLSN, none, args.isPermanent⟩
  | some (previousBackup, incrementCount) =>
    { name := backupNamePrefix ++ args.walFileName ++ (deltaMark ++ stripWalFileName previousBackup.name)
      backupStartLSN := some args.startLSN
      backupFinishLSN := args.endLSN
      increment := some
        { incrementFrom := previousBackup.name
          incrementFullName := match previousBackup.increment with
            | some details => details.incrementFullName
            | none => previousBackup.name
          incrementCount := incrementCount }
      isPermanent := args.isPermanent }

/-- The base, unless it ends after the new backup starts. -/
def pushBase : Except PushError (Option (BackupEntry × ℕ)) := do
  let base ← if args.isFullBackup then .ok none else configureDeltaBackup backups args
  match base with
  | none => .ok none
  | some (previousBackup, incrementCount) =>
    if args.startLSN < previousBackup.backupFinishLSN then .error .backupFromFuture
    else .ok (some (previousBackup, incrementCount))

/-- Before the metadata of a permanent delta is written, its chain is marked. -/
def markBackups (base : Option (BackupEntry × ℕ)) (cut : Option ℕ) :
    Option (Except MarkError (List BackupEntry)) :=
  match base with
  | some (previousBackup, _) =>
    if args.isPermanent then markBackup backups previousBackup.name true cut else some (.ok backups)
  | none => some (.ok backups)

/-- Metadata and sentinel replace those of a backup with this name. -/
def uploadMetadata (entry : BackupEntry) : List BackupEntry :=
  entry :: backups.filter (·.name ≠ entry.name)

/-- One operation. The database starts a backup in a segment of its own, so that
the name of a new backup is not in use. -/
inductive Step : List BackupEntry → List BackupEntry → Prop where
  | push {backups marked args base} (hbase : pushBase backups args = .ok base)
    (hmark : markBackups backups args base none = some (.ok marked))
    (hnew : ∀ b ∈ backups, b.name ≠ (newBackupEntry args base).name) :
    Step backups (uploadMetadata marked (newBackupEntry args base))
  | pushCut {backups marked args base writes} (hbase : pushBase backups args = .ok base)
    (hmark : markBackups backups args base (some writes) = some (.ok marked)) : Step backups marked
  | mark {backups marked backupName toPermanent cut}
    (hmark : markBackup backups backupName toPermanent cut = some (.ok marked)) : Step backups marked

/-- Some operations, from no backups on. -/
def Reachable : List BackupEntry → Prop := Relation.ReflTransGen Step []

end WalG.Mark
