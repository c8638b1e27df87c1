import WalG.Foundation.KeyedRun
import WalG.Restore.Interpreter

/-! # Fetching a backup into a directory

A backup is its sentinel with the tars it stores.
-/
namespace WalG.Restore
open Foundation PageFile

inductive Node where
  | directory
  | symlink
  | file (content : Bytes)
  deriving DecidableEq, Repr

/-- The header-only members of a tar that a restore creates. -/
inductive HeaderKind where
  | directory
  | symlink
  deriving DecidableEq, Repr

def HeaderKind.node : HeaderKind → Node
  | .directory => .directory
  | .symlink => .symlink

inductive TarEntry where
  | header (name : Text) (kind : HeaderKind)
  | regular (name : Text) (content : Bytes)
  deriving DecidableEq, Repr

def TarEntry.name : TarEntry → Text
  | .header name _ => name
  | .regular name _ => name

/-- The link names of a tablespace specification. -/
abbrev TablespaceSpec := List Text

def pgControlPath : Text := "/global/pg_control".toList
def backupLabelFilename : Text := "backup_label".toList
def tablespaceMapFilename : Text := "tablespace_map".toList

def utilityFilePaths : List Text := [pgControlPath, backupLabelFilename, tablespaceMapFilename]

/-- The sentinel and the tar partition of a backup; the pg_control tar stands
apart from the others. -/
structure Backup where
  files : BackupFileList
  isIncremental : Bool
  tablespaceSpec : Option TablespaceSpec
  tarFileSets : List (Text × List Text)
  tars : List (Text × List TarEntry)
  pgControl : Option TarEntry
  walgBasebackupName : Bool

inductive FetchError where
  | file (e : FileError)
  | isDirectory
  | throughSymlink
  | notDirectory
  | alreadyExists
  | tablespaceLink
  | noFilesToExtract
  | pgControlNotFound
  | nonEmptyDBDataDirectory
  | notInBase
  | noSentinel
  deriving DecidableEq, Repr

/-- The data directory and the tablespace links made so far. -/
structure Target where
  nodes : Text → Option Node
  tablespaceLinks : List Text

def Target.empty : Target := ⟨fun _ => none, []⟩

def Node.content? : Option Node → Option Bytes
  | some (.file content) => some content
  | _ => none

def Target.file? (target : Target) (name : Text) : Option Bytes := Node.content? (target.nodes name)

def joinPath (directory name : Text) : Text :=
  if name.head? = some '/' then directory ++ name else directory ++ '/' :: name

/-- Opening an entry's path as a regular file. -/
def localFile : Option Node → Except FetchError (Option Bytes)
  | none => .ok none
  | some (.file content) => .ok (some content)
  | some .directory => .error .isDirectory
  | some .symlink => .error .throughSymlink

/-- Directories may exist already, links may not. -/
def interpretHeader : HeaderKind → Option Node → Except FetchError (Option Node)
  | kind, none => .ok (some kind.node)
  | .directory, some .directory => .ok (some .directory)
  | .directory, some _ => .error .notDirectory
  | .symlink, some _ => .error .alreadyExists

def interpretOld (interpreter : FileTarInterpreter) (entry : TarEntry) (node : Option Node) :
    Except FetchError (Option Node) :=
  match entry with
  | .header _ kind => interpretHeader kind node
  | .regular name content =>
    if !interpreter.selects name then .ok node
    else
      match localFile node with
      | .error e => .error e
      | .ok file =>
        match unwrapRegularFileOld interpreter (.ofBytes content) name file with
        | (_, .error e) => .error (.file e)
        | (file, .ok ()) => .ok (file.map .file)

/-- Besides the node, the reverse interpreter keeps the entry's unwrap result. -/
def interpretNew (interpreter : FileTarInterpreter) (dbDataDirectory : Text) (entry : TarEntry)
    (state : Option Node × Option FileUnwrapResult) :
    Except FetchError (Option Node × Option FileUnwrapResult) :=
  match entry with
  | .header _ kind => (interpretHeader kind state.1).map fun node => (node, state.2)
  | .regular name content =>
    if !interpreter.selects name then .ok state
    else
      match localFile state.1 with
      | .error e => .error e
      | .ok file =>
        match unwrapRegularFileNew interpreter (.ofBytes content) name
            (joinPath dbDataDirectory name) file with
        | (_, .error e) => .error (.file e)
        | (file, .ok result) => .ok (file.map .file, result)

/-- Interpret every entry of the tars; the names of a backup's entries are
distinct, so the order does not matter. -/
def extractAll {V : Type} (interpret : TarEntry → V → Except FetchError V)
    (tars : List (List TarEntry)) (nodes : Text → V) : Except FetchError (Text → V) :=
  if tars = [] then .error .noFilesToExtract
  else runKeyed TarEntry.name interpret tars.flatten nodes

/-- A link that exists already is an error. -/
def setTablespacePaths : TablespaceSpec → Target → Except FetchError Target
  | [], target => .ok target
  | link :: spec, target =>
    if link ∈ target.tablespaceLinks then .error .tablespaceLink
    else setTablespacePaths spec { target with tablespaceLinks := link :: target.tablespaceLinks }

/-- A specification given by the caller or chosen above is preferred. -/
def chooseTablespaceSpecification (sentinelSpec spec : Option TablespaceSpec) : TablespaceSpec :=
  match spec with
  | some spec => spec
  | none => sentinelSpec.getD []

def Backup.interpreter (backup : Backup) (filesToUnwrap : List Text) : FileTarInterpreter :=
  ⟨backup.files, backup.isIncremental, some filesToUnwrap, false⟩

def Backup.isPgControlRequired (backup : Backup) : Bool :=
  backup.walgBasebackupName || backup.isIncremental

def Backup.shouldUnwrapTar (backup : Backup) (filesToUnwrap : List Text) (tarName : Text) : Bool :=
  backup.tarFileSets.isEmpty ||
    ((backup.tarFileSets.lookup tarName).getD []).any (· ∈ filesToUnwrap)

def Backup.getTarsToExtract (backup : Backup) (filesToUnwrap : List Text)
    (skipRedundantTars : Bool) : List (List TarEntry) :=
  (backup.tars.filter fun tar =>
    !skipRedundantTars || backup.shouldUnwrapTar filesToUnwrap tar.1).map Prod.snd

/-- Every described file and the utility files, as there is no file mask. -/
def Backup.getFilesToUnwrap (backup : Backup) : List Text :=
  backup.files.map Prod.fst ++ utilityFilePaths

/-- The files an older backup has to provide. -/
def passesDown (files : BackupFileList) (name : Text) : Bool :=
  match files.lookup name with
  | none => false
  | some description => description.isSkipped || description.isIncremented

/-- A wanted file without a description panics, unless it is a utility file. -/
def getBaseFilesToUnwrap (files : BackupFileList) (currentFilesToUnwrap : List Text) :
    Except FetchError (List Text) :=
  if currentFilesToUnwrap.all fun name =>
      (files.lookup name).isSome || decide (name ∈ utilityFilePaths)
  then .ok (currentFilesToUnwrap.filter (passesDown files))
  else .error .notInBase

def Backup.unwrapOld (backup : Backup) (filesToUnwrap : List Text) (target : Target) :
    Except FetchError Target := do
  let interpret := interpretOld (backup.interpreter filesToUnwrap)
  match backup.isPgControlRequired, backup.pgControl with
  | true, none => .error .pgControlNotFound
  | true, some pgControl =>
    let nodes ← extractAll interpret (backup.getTarsToExtract filesToUnwrap false) target.nodes
    let nodes ← extractAll interpret [[pgControl]] nodes
    .ok { target with nodes := nodes }
  | false, _ =>
    let nodes ← extractAll interpret (backup.getTarsToExtract filesToUnwrap false) target.nodes
    .ok { target with nodes := nodes }

/-- The chain lists a backup, the one it increments and so on; `isEmpty` is what
the base backup's check finds in the directory, into which nothing was written
before. -/
def deltaFetchRecursionOld (isEmpty : Bool) :
    List Backup → Option TablespaceSpec → List Text → Target → Except FetchError Target
  | [], _, _, _ => .error .noSentinel
  | backup :: older, spec, filesToUnwrap, target => do
    let spec := chooseTablespaceSpecification backup.tablespaceSpec spec
    if backup.isIncremental then
      let baseFilesToUnwrap ← getBaseFilesToUnwrap backup.files filesToUnwrap
      let target ← deltaFetchRecursionOld isEmpty older (some spec) baseFilesToUnwrap target
      let target ← setTablespacePaths spec target
      backup.unwrapOld filesToUnwrap target
    else if !isEmpty then .error .nonEmptyDBDataDirectory
    else
      let target ← setTablespacePaths spec target
      backup.unwrapOld filesToUnwrap target

end WalG.Restore
