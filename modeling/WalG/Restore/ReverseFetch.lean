import WalG.Restore.Fetch

/-! # The reverse fetch

The reverse recursion unwraps the newest backup first and goes down for what is still missing.
-/
namespace WalG.Restore
open Foundation PageFile

/-- The last unwrap result of each unwrapped file; a skipped one counts nowhere. -/
abbrev UnwrapResult := Text → Option FileUnwrapResult

def UnwrapResult.createdPageFiles (result : UnwrapResult) (name : Text) : Option ℤ :=
  match result name with
  | some (.createdFromIncrement missingBlockCount) => some missingBlockCount
  | _ => none

def UnwrapResult.writtenIncrementFiles (result : UnwrapResult) (name : Text) : Option ℕ :=
  match result name with
  | some (.wroteIncrementBlocks restoredBlockCount) => some restoredBlockCount
  | _ => none

def UnwrapResult.completedFiles (result : UnwrapResult) (name : Text) : Bool :=
  result name = some .completed

structure FetchConfig where
  filesToUnwrap : List Text
  missingBlocks : Text → Option ℤ
  tablespaceSpec : Option TablespaceSpec
  dbDataDirectory : Text
  skipRedundantTars : Bool

/-- A created file without missing blocks is complete. -/
def FetchConfig.processCreatedPageFiles (cfg : FetchConfig) (created : Text → Option ℤ) :
    FetchConfig where
  filesToUnwrap := cfg.filesToUnwrap.filter fun name => created name ≠ some 0
  missingBlocks name :=
    match created name with
    | some missingBlockCount =>
      if name ∈ cfg.filesToUnwrap ∧ missingBlockCount ≠ 0 then some missingBlockCount
      else cfg.missingBlocks name
    | none => cfg.missingBlocks name
  tablespaceSpec := cfg.tablespaceSpec
  dbDataDirectory := cfg.dbDataDirectory
  skipRedundantTars := cfg.skipRedundantTars

/-- The blocks left after an increment was written, if the file is counted. -/
def FetchConfig.blocksLeft (cfg : FetchConfig) (written : Text → Option ℕ) (name : Text) :
    Option ℤ :=
  match written name, cfg.missingBlocks name with
  | some restoredBlockCount, some missingBlockCount => some (missingBlockCount - restoredBlockCount)
  | _, _ => none

def FetchConfig.processWrittenIncrementFiles (cfg : FetchConfig) (written : Text → Option ℕ) :
    FetchConfig where
  filesToUnwrap := cfg.filesToUnwrap.filter fun name =>
    match cfg.blocksLeft written name with
    | some missingBlockCount => decide (0 < missingBlockCount)
    | none => true
  missingBlocks name :=
    match cfg.blocksLeft written name with
    | some missingBlockCount =>
      if name ∈ cfg.filesToUnwrap ∧ 0 < missingBlockCount then some missingBlockCount
      else cfg.missingBlocks name
    | none => cfg.missingBlocks name
  tablespaceSpec := cfg.tablespaceSpec
  dbDataDirectory := cfg.dbDataDirectory
  skipRedundantTars := cfg.skipRedundantTars

def FetchConfig.excludeCompletedFiles (cfg : FetchConfig) (completed : Text → Bool) : FetchConfig :=
  { cfg with filesToUnwrap := cfg.filesToUnwrap.filter fun name => !completed name }

def FetchConfig.skipRedundantFiles (cfg : FetchConfig) (result : UnwrapResult) : FetchConfig :=
  ((cfg.processCreatedPageFiles result.createdPageFiles).processWrittenIncrementFiles
    result.writtenIncrementFiles).excludeCompletedFiles result.completedFiles

/-- Extracting no tars is an error that is ignored here: the backup is passed
over, its pg_control too. -/
def Backup.unwrapNew (backup : Backup) (dbDataDirectory : Text) (filesToUnwrap : List Text)
    (skipRedundantTars : Bool) (target : Target) : Except FetchError (Target × UnwrapResult) :=
  let interpret := interpretNew (backup.interpreter filesToUnwrap) dbDataDirectory
  let tars := backup.getTarsToExtract filesToUnwrap skipRedundantTars
  let finish := fun state : Text → Option Node × Option FileUnwrapResult =>
    ({ target with nodes := fun name => (state name).1 }, fun name => (state name).2)
  if backup.isPgControlRequired && backup.pgControl.isNone then .error .pgControlNotFound
  else if tars = [] then .ok (target, fun _ => none)
  else
    match extractAll interpret tars fun name => (target.nodes name, none) with
    | .error e => .error e
    | .ok state =>
      match backup.isPgControlRequired, backup.pgControl with
      | true, some pgControl => (extractAll interpret [[pgControl]] state).map finish
      | _, _ => .ok (finish state)

def deltaFetchRecursionNew :
    List Backup → FetchConfig → Target → Except FetchError Target
  | [], _, _ => .error .noSentinel
  | backup :: older, cfg, target => do
    let spec := chooseTablespaceSpecification backup.tablespaceSpec cfg.tablespaceSpec
    if backup.isIncremental then
      let baseFilesToUnwrap ← getBaseFilesToUnwrap backup.files cfg.filesToUnwrap
      let target ← setTablespacePaths spec target
      let (target, unwrapResult) ←
        backup.unwrapNew cfg.dbDataDirectory cfg.filesToUnwrap cfg.skipRedundantTars target
      let cfg := { cfg with filesToUnwrap := baseFilesToUnwrap, tablespaceSpec := some spec }
      deltaFetchRecursionNew older
        (if cfg.skipRedundantTars then cfg.skipRedundantFiles unwrapResult else cfg) target
    else
      let target ← setTablespacePaths spec target
      let (target, _) ←
        backup.unwrapNew cfg.dbDataDirectory cfg.filesToUnwrap cfg.skipRedundantTars target
      .ok target

/-- Start in an empty directory with nothing counted. -/
def fetchNew (skipRedundantTars : Bool) (chain : List Backup) (spec : Option TablespaceSpec)
    (dbDataDirectory : Text) (filesToUnwrap : List Text) : Except FetchError Target :=
  deltaFetchRecursionNew chain
    ⟨filesToUnwrap, fun _ => none, spec, dbDataDirectory, skipRedundantTars⟩ .empty

/-- The entries a backup's unwrap interprets. -/
def Backup.extracted (backup : Backup) (filesToUnwrap : List Text) (skipRedundantTars : Bool) :
    List TarEntry :=
  let tars := backup.getTarsToExtract filesToUnwrap skipRedundantTars
  if tars = [] then []
  else tars.flatten ++ if backup.isPgControlRequired then backup.pgControl.toList else []

theorem unwrapNew_eq (backup : Backup) (dbDataDirectory : Text) (filesToUnwrap : List Text)
    (skipRedundantTars : Bool) (target : Target) :
    backup.unwrapNew dbDataDirectory filesToUnwrap skipRedundantTars target =
      if backup.isPgControlRequired && backup.pgControl.isNone then .error .pgControlNotFound
      else
        (runKeyed TarEntry.name (interpretNew (backup.interpreter filesToUnwrap) dbDataDirectory)
          (backup.extracted filesToUnwrap skipRedundantTars) fun name => (target.nodes name, none)).map
          fun state =>
            ({ target with nodes := fun name => (state name).1 }, fun name => (state name).2) := by
  simp only [Backup.unwrapNew, Backup.extracted]
  by_cases hpg : (backup.isPgControlRequired && backup.pgControl.isNone) = true
  · rw [if_pos hpg, if_pos hpg]
  · rw [if_neg hpg, if_neg hpg]
    by_cases hnil : backup.getTarsToExtract filesToUnwrap skipRedundantTars = []
    · rw [if_pos hnil, if_pos hnil]
      rfl
    · rw [if_neg hnil, if_neg hnil, runKeyed_append, extractAll, if_neg hnil]
      cases runKeyed TarEntry.name (interpretNew (backup.interpreter filesToUnwrap) dbDataDirectory)
          (backup.getTarsToExtract filesToUnwrap skipRedundantTars).flatten
          (fun name => (target.nodes name, none)) with
      | error e => rfl
      | ok state => cases backup.isPgControlRequired <;> cases backup.pgControl <;> rfl

theorem unwrapNew_eq_ok_iff {backup : Backup} {dbDataDirectory : Text} {filesToUnwrap : List Text}
    {skipRedundantTars : Bool} {target target' : Target} {result : UnwrapResult}
    (hnd : ((backup.extracted filesToUnwrap skipRedundantTars).map TarEntry.name).Nodup) :
    backup.unwrapNew dbDataDirectory filesToUnwrap skipRedundantTars target = .ok (target', result) ↔
      (backup.isPgControlRequired && backup.pgControl.isNone) = false ∧
      target'.tablespaceLinks = target.tablespaceLinks ∧
      (∀ entry ∈ backup.extracted filesToUnwrap skipRedundantTars,
        interpretNew (backup.interpreter filesToUnwrap) dbDataDirectory entry
          (target.nodes entry.name, none) = .ok (target'.nodes entry.name, result entry.name)) ∧
      ∀ k ∉ (backup.extracted filesToUnwrap skipRedundantTars).map TarEntry.name,
        target'.nodes k = target.nodes k ∧ result k = none := by
  rw [unwrapNew_eq]
  cases hpg : backup.isPgControlRequired && backup.pgControl.isNone with
  | true => simp
  | false =>
    have hrun : runKeyed TarEntry.name (interpretNew (backup.interpreter filesToUnwrap) dbDataDirectory)
        (backup.extracted filesToUnwrap skipRedundantTars) (fun name => (target.nodes name, none)) =
          .ok (fun name => (target'.nodes name, result name)) ↔ _ := runKeyed_eq_ok_iff hnd
    simp only [Prod.mk.injEq] at hrun
    rw [if_neg Bool.false_ne_true, and_iff_right rfl, ← hrun]
    obtain ⟨nodes', links'⟩ := target'
    cases runKeyed TarEntry.name (interpretNew (backup.interpreter filesToUnwrap) dbDataDirectory)
        (backup.extracted filesToUnwrap skipRedundantTars) (fun name => (target.nodes name, none)) with
    | error e => simp [Except.map]
    | ok state =>
      simp only [Except.map, Except.ok.injEq, Prod.mk.injEq, Target.mk.injEq]
      constructor
      · rintro ⟨⟨rfl, rfl⟩, rfl⟩
        exact ⟨rfl, rfl⟩
      · rintro ⟨rfl, rfl⟩
        exact ⟨⟨rfl, rfl⟩, rfl⟩

theorem unwrapNew_exists_ok {backup : Backup} {dbDataDirectory : Text} {filesToUnwrap : List Text}
    {skipRedundantTars : Bool} {target : Target}
    (hnd : ((backup.extracted filesToUnwrap skipRedundantTars).map TarEntry.name).Nodup)
    (hpg : (backup.isPgControlRequired && backup.pgControl.isNone) = false)
    (h : ∀ entry ∈ backup.extracted filesToUnwrap skipRedundantTars, ∃ state,
      interpretNew (backup.interpreter filesToUnwrap) dbDataDirectory entry
        (target.nodes entry.name, none) = .ok state) :
    ∃ target' result, backup.unwrapNew dbDataDirectory filesToUnwrap skipRedundantTars target =
      .ok (target', result) := by
  obtain ⟨state, hrun⟩ := runKeyed_exists_ok (m := fun name => (target.nodes name, none)) hnd h
  rw [unwrapNew_eq, hpg, if_neg Bool.false_ne_true, hrun]
  exact ⟨_, _, rfl⟩

end WalG.Restore
