import WalG.Delete.PgStorage
import WalG.Foundation.Stream
import WalG.Foundation.Table

/-! # Copying a backup to another storage

The objects to copy are selected from listings whose names are relative to the folder that is
listed, and each is put into the target under that name.
-/
namespace WalG.Copy
open Foundation Wal Delete List

/-- The contents of the objects by their paths from the root. -/
abbrev Storage := Table Text Bytes

def listFolderRecursively (source : Storage) (path : Text) : List Text := subFolder path source.keys

/-- One object to copy, with the paths of the folders it is read from and put into. -/
structure InfoProvider where
  fromPath : Text
  toPath : Text
  srcObj : Text
  targetName : Text
  deriving DecidableEq

namespace InfoProvider

def sourcePath (info : InfoProvider) : Text := info.fromPath ++ info.srcObj

def targetPath (info : InfoProvider) : Text := info.toPath ++ info.targetName

end InfoProvider

def copyObject (source target : Storage) (info : InfoProvider) : Option Storage :=
  (source.get info.sourcePath).map fun content => target.set info.targetPath content

/-- Copy the objects in the order in which the parallel jobs put them. -/
def copyInfos (source target : Storage) (infos : List InfoProvider) : Option Storage :=
  infos.foldlM (copyObject source) target

def noopRenameFunc (object : Text) : Text := object

def buildCopyingInfos (fromPath toPath : Text) (objects : List Text) (filter : Text → Bool) (renameFunc : Text → Text) :
    List InfoProvider :=
  (objects.filter filter).map fun object => ⟨fromPath, toPath, object, renameFunc object⟩

inductive CopyError where
  | noBackupsFound
  | backupNonExistence
  /-- A name whose timeline cannot be parsed ends the process. -/
  | fatal
  | sliceOutOfRange
  deriving DecidableEq, Repr

section Selection

variable (w : WalSize) (unmarshal : Bytes → Option UInt64) (sort : SliceSort (Text × ℕ)) (modified : Text → ℕ)
  (source : Storage)

/-- The names of the backups, with the times at which their sentinels were last modified. -/
def getBackups : List (Text × ℕ) :=
  ((subFolder baseBackupPath source.keys).filter fun object =>
    '/' ∉ object ∧ sentinelSuffix.isSuffixOf object).map fun object =>
      (stripRightmostBackupName object, modified object)

def getLatestBackupName : Except CopyError Text :=
  match (sort.sort (fun a b => a.2 < b.2) (getBackups modified source)).getLast? with
  | none => .error .noBackupsFound
  | some latest => .ok latest.1

def getBackupByName (backupName : Text) : Except CopyError Text :=
  if backupName = "LATEST".toList then getLatestBackupName sort modified source
  else if (source.get (baseBackupPath ++ (backupName ++ sentinelSuffix))).isSome then .ok backupName
  else .error .backupNonExistence

/-- The LSN at which the backup was finished, if its metadata can be read. -/
def fetchMeta (backupName : Text) : Option UInt64 :=
  (source.get (baseBackupPath ++ (backupName ++ "/metadata.json".toList))).bind unmarshal

/-- Nothing without metadata. -/
def getLastWalFilename (backupName : Text) : Except CopyError (Option Text) :=
  match fetchMeta unmarshal source backupName with
  | none => .ok none
  | some finishLsn =>
    match parseTimelineFromBackupName backupName with
    | .error _ => .error .sliceOutOfRange
    | .ok none => .error .fatal
    | .ok (some timelineID) =>
      .ok (some (formatWALFileName w timelineID (newWalSegmentNo w (lsnPred finishLsn.toNat))))

def backupCopyingInfo (backupName : Text) : List InfoProvider :=
  buildCopyingInfos [] [] (listFolderRecursively source [])
    (fun object => (joinPath baseBackupPath backupName).isPrefixOf object) noopRenameFunc

def historyCopyingInfo (backupName : Text) : Except CopyError (List InfoProvider) :=
  match getLastWalFilename w unmarshal source backupName with
  | .error e => .error e
  | .ok none => .ok []
  | .ok (some lastWalFilename) =>
    .ok (buildCopyingInfos walPath [] (listFolderRecursively source walPath)
      (fun object => !textLess object lastWalFilename) noopRenameFunc)

def wildcardInfo : List InfoProvider :=
  buildCopyingInfos [] [] (listFolderRecursively source []) (fun _ => true) noopRenameFunc

/-- All objects without a name; otherwise those of the backup and, unless they are unwanted, of its WAL. -/
def getCopyingInfos (backupName : Text) (withoutHistory : Bool) : Except CopyError (List InfoProvider) := do
  if backupName = [] then .ok (wildcardInfo source)
  else
    let name ← getBackupByName sort modified source backupName
    if withoutHistory then .ok (backupCopyingInfo source name)
    else
      let history ← historyCopyingInfo w unmarshal source name
      .ok (backupCopyingInfo source name ++ history)

end Selection

section Copying

variable {source target target' : Storage} {infos : List InfoProvider} {info : InfoProvider}

theorem mem_listFolderRecursively {path object : Text} :
    object ∈ listFolderRecursively source path ↔ (source.get (path ++ object)).isSome = true := by
  rw [listFolderRecursively, mem_subFolder, Table.mem_keys_iff]

theorem mem_buildCopyingInfos {fromPath toPath : Text} {objects : List Text} {filter : Text → Bool}
    {renameFunc : Text → Text} : info ∈ buildCopyingInfos fromPath toPath objects filter renameFunc ↔
      ∃ object ∈ objects, filter object = true ∧ info = ⟨fromPath, toPath, object, renameFunc object⟩ := by
  simp only [buildCopyingInfos, mem_map, mem_filter, and_assoc, eq_comm]

def Listed (source : Storage) (infos : List InfoProvider) : Prop :=
  ∀ info ∈ infos, (source.get info.sourcePath).isSome = true

theorem listed_buildCopyingInfos (path : Text) (filter : Text → Bool) (renameFunc : Text → Text) :
    Listed source (buildCopyingInfos path [] (listFolderRecursively source path) filter renameFunc) := by
  intro info hinfo
  obtain ⟨object, hobject, -, rfl⟩ := mem_buildCopyingInfos.mp hinfo
  exact mem_listFolderRecursively.mp hobject

theorem Listed.append {infos' : List InfoProvider} (h : Listed source infos) (h' : Listed source infos') :
    Listed source (infos ++ infos') := fun info hinfo => (mem_append.mp hinfo).elim (h info) (h' info)

theorem copyInfos_eq (h : Listed source infos) : copyInfos source target infos =
    some (target.setAll InfoProvider.targetPath (fun info => (source.get info.sourcePath).getD []) infos) := by
  induction infos generalizing target with
  | nil => rfl
  | cons info infos ih =>
    obtain ⟨hinfo, hinfos⟩ := forall_mem_cons.mp h
    obtain ⟨content, hcontent⟩ := Option.isSome_iff_exists.mp hinfo
    rw [copyInfos, foldlM_cons, copyObject, hcontent, Option.map_some, Option.bind_eq_bind, Option.bind_some]
    refine (ih hinfos).trans ?_
    rw [Table.setAll, Table.setAll, foldl_cons, hcontent, Option.getD_some]

/-- What is found at a path after the copying was put there by one of the copies, or was there before. -/
theorem get_copyInfos (h : Listed source infos) (hcopy : copyInfos source target infos = some target') (path : Text) :
    (∃ info ∈ infos, info.targetPath = path ∧ target'.get path = source.get info.sourcePath) ∨
      ((∀ info ∈ infos, info.targetPath ≠ path) ∧ target'.get path = target.get path) := by
  rw [copyInfos_eq h] at hcopy
  cases hcopy
  cases hget :
      (target.setAll InfoProvider.targetPath (fun info => (source.get info.sourcePath).getD []) infos).get path with
  | none =>
    obtain ⟨hbefore, hnone⟩ := Table.get_setAll_eq_none hget
    exact .inr ⟨hnone, hbefore.symm⟩
  | some content =>
    rcases Table.get_setAll_eq_some hget with ⟨hbefore, hnone⟩ | ⟨before, info, after, rfl, hpath, hvalue, -⟩
    · exact .inr ⟨hnone, hbefore.symm⟩
    · have hinfo : info ∈ before ++ info :: after := mem_append_right _ mem_cons_self
      obtain ⟨stored, hstored⟩ := Option.isSome_iff_exists.mp (h info hinfo)
      refine .inl ⟨info, hinfo, hpath, ?_⟩
      rw [hstored, ← hvalue, hstored]
      rfl

/-- In whatever order they are copied, all objects are found at their own paths, whatever was in the target before. -/
def KeepsPaths (source : Storage) (infos : List InfoProvider) : Prop :=
  ∀ target order target', order.Perm infos → copyInfos source target order = some target' →
    ∀ info ∈ infos, target'.get info.sourcePath = source.get info.sourcePath

theorem Listed.perm {order : List InfoProvider} (h : Listed source infos) (horder : order.Perm infos) :
    Listed source order := fun info hinfo => h info (horder.mem_iff.mp hinfo)

theorem keepsPaths_of_same (h : Listed source infos) (hsame : ∀ info ∈ infos, info.targetPath = info.sourcePath) :
    KeepsPaths source infos := by
  intro target order target' horder hcopy info hinfo
  rcases get_copyInfos (h.perm horder) hcopy info.sourcePath with
    ⟨copied, hcopied, hpath, hget⟩ | ⟨hnone, -⟩
  · rw [hget, ← hsame copied (horder.mem_iff.mp hcopied), hpath]
  · exact absurd (hsame info hinfo) (hnone info (horder.mem_iff.mpr hinfo))

/-- Every path that was copied from is also copied to. -/
theorem KeepsPaths.exists_targetPath (h : KeepsPaths source infos) (hlisted : Listed source infos)
    (hinfo : info ∈ infos) : ∃ copied ∈ infos, copied.targetPath = info.sourcePath := by
  have hcopy : copyInfos source Table.empty infos = _ := copyInfos_eq hlisted
  rcases get_copyInfos hlisted hcopy info.sourcePath with ⟨copied, hcopied, hpath, -⟩ | ⟨-, hget⟩
  · exact ⟨copied, hcopied, hpath⟩
  · rw [h _ infos _ (.refl _) hcopy info hinfo] at hget
    have hsome := hlisted info hinfo
    rw [hget] at hsome
    cases hsome

end Copying

end WalG.Copy
