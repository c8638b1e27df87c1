import WalG.Delete.BeforeTarget
import Mathlib.Data.Char
import Mathlib.Data.List.Lex

/-! # Delete commands on a MySQL storage

The backups are those with a sentinel, ordered by the time in their names.
-/
namespace WalG.MySQL
open Foundation Delete

def isPermanent (objectName : Text) (permanentBackups : Text → Bool) : Except DeleteError Bool :=
  if objectName.length < baseBackupPath.length then .error .sliceOutOfRange
  else if objectName.take baseBackupPath.length = baseBackupPath then
    if objectName.length < baseBackupPath.length + 23 then .error .sliceOutOfRange
    else .ok (permanentBackups ((objectName.drop baseBackupPath.length).take 23))
  else .ok false

/-- Eight digits, a `T`, six digits and a `Z`. -/
def startsWithTime (s : Text) : Bool :=
  (s.take 8).length = 8 ∧ (s.take 8).all Char.isDigit ∧ (s.drop 8).head? = some 'T' ∧
    ((s.drop 9).take 6).length = 6 ∧ ((s.drop 9).take 6).all Char.isDigit ∧ (s.drop 15).head? = some 'Z'

/-- The first time in a name. -/
def tryFetchTimeRFC3999 : Text → Option Text
  | [] => none
  | c :: s => if startsWithTime (c :: s) then some ((c :: s).take 16) else tryFetchTimeRFC3999 s

/-- The names of the permanent backups; metadata that cannot be read are ignored. -/
def permanentObjects (s : Storage) : List Text :=
  s.getBackups.filter fun backupName => (s.fetchMeta backupName).any BackupMetadata.isPermanent

/-- Every backup is full, and its own base. -/
def newDefaultBackupObject (s : Storage) (object : Text) : BackupObject :=
  let backupName := stripRightmostBackupName object
  ⟨object, backupName, s.lastModified (baseBackupPath ++ object), true, backupName, backupName⟩

section Handler

variable (formatTime : ℤ → Text) (s : Storage)

/-- The time in an object's name, or else the formatted time of its last change. -/
def timeOf (name : Text) (lastModified : ℤ) : Text :=
  (tryFetchTimeRFC3999 name).getD (formatTime lastModified)

/-- An object named from the root is older than a backup's sentinel. -/
def olderThan (object target : Text) : Bool :=
  timeOf formatTime object (s.lastModified object) <
    timeOf formatTime target (s.lastModified (baseBackupPath ++ target))

/-- The backups are compared by their sentinels, which are named in their folder. -/
def newMySQLDeleteHandler : DeleteHandler where
  backups := s.getBackupSentinelObjects.map (newDefaultBackupObject s)
  less object1 object2 := timeOf formatTime object1 (s.lastModified (baseBackupPath ++ object1)) <
    timeOf formatTime object2 (s.lastModified (baseBackupPath ++ object2))
  isPermanent object := isPermanent object (· ∈ permanentObjects s)

inductive Command where
  | before (modifier : DeleteModifier) (point : Point)
  | retain (modifier : DeleteModifier) (retentionCount : ℕ)
  | target (backupName : Text)

variable (sort : SliceSort BackupObject)

/-- The target of a command that deletes everything before it. -/
def findCut : Command → Except DeleteError (Option BackupObject)
  | .before modifier point => (newMySQLDeleteHandler formatTime s).findBeforeTarget sort (.before modifier point)
  | .retain modifier retentionCount =>
    (newMySQLDeleteHandler formatTime s).findBeforeTarget sort (.retain modifier retentionCount)
  | .target _ => .ok none

/-- The objects handed to deletion; those before a target are compared with it by
their names from the root. -/
def run : Command → Option (Except DeleteError (List Text))
  | .target backupName => (newMySQLDeleteHandler formatTime s).handleDeleteTarget s.objects false backupName
  | command =>
    match findCut formatTime s sort command with
    | .error e => some (.error e)
    | .ok none => some (.ok [])
    | .ok (some target) =>
      some ({ newMySQLDeleteHandler formatTime s with less := olderThan formatTime s }.deleteBeforeTarget
        s.objects target)

end Handler

/-- The backup an object of the folder of the backups belongs to. -/
def Belongs (backupName object : Text) : Prop :=
  ∃ name, object = baseBackupPath ++ name ∧ stripLeftmostBackupName name = backupName

/-- The names the permanence test can cut. -/
def Testable (objectName : Text) : Prop :=
  baseBackupPath.length ≤ objectName.length ∧
    (baseBackupPath <+: objectName → baseBackupPath.length + 23 ≤ objectName.length)

theorem take_eq_iff_isPrefix {objectName : Text} :
    objectName.take baseBackupPath.length = baseBackupPath ↔ baseBackupPath <+: objectName := by
  rw [List.prefix_iff_eq_take, eq_comm]

theorem isPermanent_of_not_testable {objectName : Text} (h : ¬ Testable objectName)
    (permanentBackups : Text → Bool) : isPermanent objectName permanentBackups = .error .sliceOutOfRange := by
  rw [isPermanent]
  split_ifs with hshort hstart hname
  · rfl
  · rfl
  · exact absurd ⟨not_lt.mp hshort, fun _ => not_lt.mp hname⟩ h
  · exact absurd ⟨not_lt.mp hshort, fun hp => absurd (take_eq_iff_isPrefix.mpr hp) hstart⟩ h

theorem isPermanent_of_testable {objectName : Text} (h : Testable objectName)
    (permanentBackups : Text → Bool) : isPermanent objectName permanentBackups =
      .ok (baseBackupPath.isPrefixOf objectName &&
        permanentBackups ((objectName.drop baseBackupPath.length).take 23)) := by
  rw [isPermanent, if_neg h.1.not_gt]
  split_ifs with hstart hname
  · exact absurd hname (h.2 (take_eq_iff_isPrefix.mp hstart)).not_gt
  · rw [List.isPrefixOf_iff_prefix.mpr (take_eq_iff_isPrefix.mp hstart), Bool.true_and]
  · have hno : baseBackupPath.isPrefixOf objectName = false := by
      rw [Bool.eq_false_iff, ne_eq, List.isPrefixOf_iff_prefix]
      exact fun hp => hstart (take_eq_iff_isPrefix.mpr hp)
    rw [hno, Bool.false_and]

end WalG.MySQL
