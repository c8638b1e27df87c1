import WalG.Foundation.SliceSort
import WalG.Foundation.WorkQueue
import WalG.Delete.ObjectNames

/-! # The delete handler

A delete command looks for a target among the sorted backups and hands to the storage a filter over
all object names.
-/
namespace WalG.Delete
open Foundation

inductive DeleteModifier where
  | noDelete
  | full
  | findFull
  deriving DecidableEq, Repr

/-- A sentinel object with what its sentinel says. -/
structure BackupObject where
  name : Text
  backupName : Text
  backupTime : ℤ
  isFullBackup : Bool
  baseBackupName : Text
  incrementFromName : Text
  deriving DecidableEq

/-- A comparison of object names and the permanence test go with the backups. -/
structure DeleteHandler where
  backups : List BackupObject
  less : Text → Text → Bool
  isPermanent : Text → Except DeleteError Bool

/-- Where a command cuts: a time, or the start of a backup's object name. -/
inductive Point where
  | time (t : ℤ)
  | name (start : Text)

inductive DeleteCommand where
  | before (modifier : DeleteModifier) (point : Point)
  | retain (modifier : DeleteModifier) (retentionCount : ℕ)
  | retainAfter (modifier : DeleteModifier) (retentionCount : ℕ) (point : Point)
  | target (findFull : Bool) (targetName : Text)

/-- The first object at which a stateful choice says yes. -/
def choose {σ : Type} (isTarget : σ → BackupObject → Bool × σ) : σ → List BackupObject → Option BackupObject
  | _, [] => none
  | s, object :: objects =>
    if (isTarget s object).1 then some object else choose isTarget (isTarget s object).2 objects

/-- Sort, then choose; the backups stay in their new order. -/
def findTarget {σ : Type} (sort : SliceSort BackupObject) (compare : Text → Text → Bool)
    (isTarget : σ → BackupObject → Bool × σ) (s : σ) (objects : List BackupObject) :
    Option BackupObject × List BackupObject :=
  let sorted := sort.sort (fun a b => compare a.name b.name) objects
  (choose isTarget s sorted, sorted)

/-- The state says whether the name was met. -/
def getBeforeChoiceFunc (name : Text) : DeleteModifier → Option (Bool → BackupObject → Bool × Bool)
  | .noDelete => some fun meetName object => (name.isPrefixOf object.name, meetName)
  | .findFull => some fun meetName object =>
    let meetName := meetName || name.isPrefixOf object.name
    (meetName && object.isFullBackup, meetName)
  | .full => none

/-- The state counts the backups, or the full ones. -/
def getRetainChoiceFunc (retentionCount : ℕ) : DeleteModifier → ℕ → BackupObject → Bool × ℕ
  | .noDelete => fun count _ => (count + 1 = retentionCount, count + 1)
  | .full => fun count object =>
    let count := if object.isFullBackup then count + 1 else count
    (count = retentionCount, count)
  | .findFull => fun count object => (retentionCount ≤ count + 1 && object.isFullBackup, count + 1)

def choiceFuncAfterName (name : Text) (modifier : DeleteModifier) (meetName : Bool)
    (object : BackupObject) : Bool × Bool :=
  let meetName := meetName || name.isPrefixOf object.name
  (if modifier = .noDelete then meetName else meetName && object.isFullBackup, meetName)

def choiceFuncAfter (timeLine : ℤ) (modifier : DeleteModifier) (_ : Unit) (object : BackupObject) :
    Bool × Unit :=
  let timeCheck : Bool := timeLine ≤ object.backupTime
  (if modifier = .noDelete then timeCheck else timeCheck && object.isFullBackup, ())

namespace DeleteHandler

variable (h : DeleteHandler) (sort : SliceSort BackupObject)

def greater (object1 object2 : Text) : Bool := h.less object2 object1

def findTargetBeforeName (name : Text) (modifier : DeleteModifier) : Except DeleteError BackupObject :=
  match getBeforeChoiceFunc name modifier with
  | none => .error .forbiddenAction
  | some choiceFunc =>
    match (findTarget sort h.greater choiceFunc false h.backups).1 with
    | none => .error .notFound
    | some target => .ok target

/-- The first backup at or after the time names the target. -/
def findTargetBeforeTime (timeLine : ℤ) (modifier : DeleteModifier) :
    Except DeleteError (Option BackupObject) :=
  match findTarget sort h.less (fun _ object => (timeLine ≤ object.backupTime, ())) () h.backups with
  | (none, _) => .ok none
  | (some potentialTarget, backups) =>
    ({ h with backups := backups }.findTargetBeforeName sort potentialTarget.name modifier).map some

def findTargetRetain (retentionCount : ℕ) (modifier : DeleteModifier) :
    Except DeleteError BackupObject :=
  match (findTarget sort h.greater (getRetainChoiceFunc retentionCount modifier) 0 h.backups).1 with
  | none => .error .notFound
  | some target => .ok target

/-- The comparison of the two targets panics if one was not found. -/
def findTargetRetainAfterName (retentionCount : ℕ) (name : Text) (modifier : DeleteModifier) :
    Except DeleteError (Option BackupObject) :=
  let (target1, backups) :=
    findTarget sort h.greater (getRetainChoiceFunc retentionCount modifier) 0 h.backups
  let (target2, _) := findTarget sort h.less (choiceFuncAfterName name modifier) false backups
  match target1, target2 with
  | some target1, some target2 =>
    .ok (some (if h.greater target2.name target1.name then target1 else target2))
  | _, _ => .error .nilTarget

def findTargetRetainAfterTime (retentionCount : ℕ) (timeLine : ℤ) (modifier : DeleteModifier) :
    Option BackupObject :=
  let (target1, backups) :=
    findTarget sort h.greater (getRetainChoiceFunc retentionCount modifier) 0 h.backups
  let (target2, _) := findTarget sort h.less (choiceFuncAfter timeLine modifier) () backups
  match target1, target2 with
  | none, target2 => target2
  | some target1, none => some target1
  | some target1, some target2 =>
    some (if h.greater target2.name target1.name then target1 else target2)

end DeleteHandler

/-- The storage deletes exactly the objects the filter accepts; a filter that
panics stops the command before that. -/
def deleteObjectsWhere (filter : Text → Except DeleteError Bool) :
    List Text → Except DeleteError (List Text)
  | [] => .ok []
  | object :: objects => do
    let accepted ← filter object
    let deleted ← deleteObjectsWhere filter objects
    pure (if accepted then object :: deleted else deleted)

/-- The objects of a folder by their names in it. -/
def subFolder (path : Text) (objects : List Text) : List Text :=
  objects.filterMap fun object =>
    if path.isPrefixOf object then some (object.drop path.length) else none

namespace DeleteHandler

variable (h : DeleteHandler)

def deleteBeforeTarget (objects : List Text) (target : BackupObject) : Except DeleteError (List Text) :=
  if !target.isFullBackup then .error .forbiddenAction
  else
    deleteObjectsWhere (fun object =>
      if h.less object target.name then (h.isPermanent object).map not else .ok false) objects

def refusePermanent : List BackupObject → Except DeleteError Unit
  | [] => .ok ()
  | target :: targets => do
    let permanent ← h.isPermanent target.name
    if permanent then .error .forbiddenAction else refusePermanent targets

/-- Within the folder of the backups. -/
def deleteTargets (objects : List Text) (targets : List BackupObject) :
    Except DeleteError (List Text) := do
  h.refusePermanent targets
  let backupNamesToDelete := targets.map BackupObject.backupName
  let deleted ← deleteObjectsWhere (fun object =>
    if stripLeftmostBackupName object ∈ backupNamesToDelete then (h.isPermanent object).map not
    else .ok false) (subFolder baseBackupPath objects)
  pure (deleted.map (baseBackupPath ++ ·))

def findRelatedBackups (target : BackupObject) : List BackupObject :=
  h.backups.filter fun other =>
    if target.isFullBackup then
      target.backupName = other.backupName || target.backupName = other.baseBackupName
    else
      target.baseBackupName = other.backupName || target.baseBackupName = other.baseBackupName

def incrementsByBackup (name : Text) : List BackupObject :=
  h.backups.filter fun backup => !backup.isFullBackup && backup.incrementFromName = name

/-- One round for each backup suffices unless the increments form a cycle. -/
def findDependantBackups (target : BackupObject) : Option (List BackupObject) :=
  workQueue (fun curr => h.incrementsByBackup curr.backupName) h.backups.length [target]

end DeleteHandler

end WalG.Delete
