import WalG.Restore.StoredChain

/-! # The reverse fetch file by file

The bookkeeping of redundant files looks at each file's own result and counter only.
-/
namespace WalG.Restore
open Foundation PageFile List

variable {cfg : FetchConfig} {result : UnwrapResult} {name : Text}

theorem mem_skipRedundantFiles : name ∈ (cfg.skipRedundantFiles result).filesToUnwrap ↔
      name ∈ cfg.filesToUnwrap ∧ (account (cfg.missingBlocks name) (result name)).1 = true := by
  rcases hr : result name with _ | _ | count | restored | _
  all_goals simp only [FetchConfig.skipRedundantFiles, FetchConfig.excludeCompletedFiles,
    FetchConfig.processWrittenIncrementFiles, mem_filter, decide_eq_true_eq, Bool.not_eq_true',
    FetchConfig.blocksLeft, FetchConfig.processCreatedPageFiles,
    UnwrapResult.createdPageFiles, UnwrapResult.writtenIncrementFiles, UnwrapResult.completedFiles, hr]
  · simp [account]
  · simp [account]
  · simp [account]
  · cases cfg.missingBlocks name <;> simp [account]
  · simp [account]

theorem skipRedundantFiles_missing (hn : name ∈ cfg.filesToUnwrap)
    (hs : (account (cfg.missingBlocks name) (result name)).1 = true) :
    (cfg.skipRedundantFiles result).missingBlocks name =
      (account (cfg.missingBlocks name) (result name)).2 := by
  rcases hr : result name with _ | _ | count | restored | _
  all_goals
    rw [hr] at hs
    simp only [FetchConfig.skipRedundantFiles, FetchConfig.excludeCompletedFiles,
      FetchConfig.processWrittenIncrementFiles, FetchConfig.blocksLeft,
      FetchConfig.processCreatedPageFiles, UnwrapResult.createdPageFiles,
      UnwrapResult.writtenIncrementFiles, mem_filter, hr]
  · rfl
  · cases hs
  · simp [account, hn]
  · cases hm : cfg.missingBlocks name <;> simp [account, hn]
  · rfl

/-- The configuration for the backup below. -/
def FetchConfig.below (cfg : FetchConfig) (spec : TablespaceSpec) (base : List Text)
    (result : UnwrapResult) : FetchConfig :=
  let cfg := { cfg with filesToUnwrap := base, tablespaceSpec := some spec }
  if cfg.skipRedundantTars then cfg.skipRedundantFiles result else cfg

theorem below_dbDataDirectory (cfg : FetchConfig) (result : UnwrapResult) (spec : TablespaceSpec) (base : List Text) :
    (cfg.below spec base result).dbDataDirectory = cfg.dbDataDirectory ∧
      (cfg.below spec base result).skipRedundantTars = cfg.skipRedundantTars ∧
      (cfg.below spec base result).tablespaceSpec = some spec := by
  simp only [FetchConfig.below]
  split <;> exact ⟨rfl, rfl, rfl⟩

theorem mem_below {spec : TablespaceSpec} {base : List Text} :
    name ∈ (cfg.below spec base result).filesToUnwrap ↔ name ∈ base ∧
      (cfg.skipRedundantTars = true → (account (cfg.missingBlocks name) (result name)).1 = true) := by
  simp only [FetchConfig.below]
  cases cfg.skipRedundantTars with
  | true =>
    rw [if_pos rfl, mem_skipRedundantFiles]
    simp
  | false => simp

theorem below_missing {spec : TablespaceSpec} {base : List Text}
    (h : name ∈ (cfg.below spec base result).filesToUnwrap) :
    (cfg.below spec base result).missingBlocks name =
      if cfg.skipRedundantTars then (account (cfg.missingBlocks name) (result name)).2
      else cfg.missingBlocks name := by
  obtain ⟨hbase, hstays⟩ := mem_below.mp h
  simp only [FetchConfig.below]
  cases hskip : cfg.skipRedundantTars with
  | true =>
    rw [if_pos rfl, if_pos rfl]
    exact skipRedundantFiles_missing hbase (hstays hskip)
  | false => rfl

theorem deltaFetchNew_cons_iff {backup : Backup} {older : List Backup} {target final : Target} :
    deltaFetchRecursionNew (backup :: older) cfg target = .ok final ↔
      ∃ linked target' result,
        setTablespacePaths (chooseTablespaceSpecification backup.tablespaceSpec cfg.tablespaceSpec)
          target = .ok linked ∧
        backup.unwrapNew cfg.dbDataDirectory cfg.filesToUnwrap cfg.skipRedundantTars linked =
          .ok (target', result) ∧
        if backup.isIncremental then
          ∃ base, getBaseFilesToUnwrap backup.files cfg.filesToUnwrap = .ok base ∧
            deltaFetchRecursionNew older (cfg.below (chooseTablespaceSpecification
              backup.tablespaceSpec cfg.tablespaceSpec) base result) target' = .ok final
        else final = target' := by
  rw [deltaFetchRecursionNew]
  cases backup.isIncremental with
  | true =>
    constructor
    · intro h
      obtain ⟨base, hbase, h⟩ := bind_ok h
      obtain ⟨linked, hlinked, h⟩ := bind_ok h
      obtain ⟨⟨target', result⟩, hunwrap, h⟩ := bind_ok h
      exact ⟨linked, target', result, hlinked, hunwrap, base, hbase, h⟩
    · rintro ⟨linked, target', result, hlinked, hunwrap, base, hbase, h⟩
      rw [hbase, hlinked]
      simp only [bind, Except.bind, hunwrap]
      exact h
  | false =>
    simp only [Bool.false_eq_true, if_false]
    constructor
    · intro h
      obtain ⟨linked, hlinked, h⟩ := bind_ok h
      obtain ⟨⟨target', result⟩, hunwrap, h⟩ := bind_ok h
      exact ⟨linked, target', result, hlinked, hunwrap, (Except.ok.inj h).symm⟩
    · rintro ⟨linked, target', result, hlinked, hunwrap, rfl⟩
      rw [hlinked]
      simp only [bind, Except.bind, hunwrap]

theorem setTablespacePaths_nodes {spec : TablespaceSpec} {target target' : Target}
    (h : setTablespacePaths spec target = .ok target') : target'.nodes = target.nodes := by
  induction spec generalizing target with
  | nil =>
    cases h
    rfl
  | cons link spec ih =>
    rw [setTablespacePaths] at h
    split_ifs at h
    have hrest := ih h
    exact hrest

theorem getBaseFilesToUnwrap_ok {files : BackupFileList} {current base : List Text}
    (h : getBaseFilesToUnwrap files current = .ok base) : base = current.filter (passesDown files) := by
  unfold getBaseFilesToUnwrap at h
  split_ifs at h
  exact (Except.ok.inj h).symm

section FileRunEquations

variable {b : StoredBackup} {older : List StoredBackup} {skip : Bool} {path : Text}
  {missing : Option ℤ} {file file' : Option Bytes} {r : Option FileUnwrapResult}
  (hunwrap : b.unwrapFile path name file = .ok (file', r))

include hunwrap

theorem fileRun_on (hi : b.backup.isIncremental = true)
    (hdown : passesDown b.backup.files name = true) (hstays : skip = true → (account missing r).1 = true) :
    fileRun skip path name (b :: older) missing file =
      fileRun skip path name older (if skip then (account missing r).2 else missing) file' := by
  rw [fileRun, hunwrap]
  simp only [hi, hdown, Bool.and_self, if_true]
  cases skip with
  | false => rfl
  | true => simp only [hstays rfl, if_true]

theorem fileRun_stop (hstop : b.backup.isIncremental = false ∨
      passesDown b.backup.files name = false ∨ skip = true ∧ (account missing r).1 = false) :
    fileRun skip path name (b :: older) missing file = .ok file' := by
  rw [fileRun, hunwrap]
  dsimp only
  rcases hstop with hi | hdown | ⟨rfl, hout⟩
  · rw [hi, Bool.false_and, if_neg Bool.false_ne_true]
  · rw [hdown, Bool.and_false, if_neg Bool.false_ne_true]
  · rw [if_pos rfl, hout, if_neg Bool.false_ne_true, ite_self]

end FileRunEquations

/-- The recursion does to a wanted file what `fileRun` does, and nothing to the
others; pg_control is looked at apart. -/
theorem deltaFetchNew_file? (chain : List StoredBackup) {target final : Target}
    (h : deltaFetchRecursionNew (chain.map StoredBackup.backup) cfg target = .ok final) :
    (name ∉ cfg.filesToUnwrap → final.file? name = target.file? name) ∧
      (name ∈ cfg.filesToUnwrap → name ≠ pgControlPath →
        fileRun cfg.skipRedundantTars (joinPath cfg.dbDataDirectory name) name chain
          (cfg.missingBlocks name) (target.file? name) = .ok (final.file? name)) := by
  induction chain generalizing cfg target with
  | nil => cases h
  | cons b older ih =>
    obtain ⟨linked, target', result, hlinked, hunwrap, hrest⟩ := deltaFetchNew_cons_iff.mp h
    generalize chooseTablespaceSpecification b.backup.tablespaceSpec cfg.tablespaceSpec = spec at *
    have hsame : linked.file? name = target.file? name := by
      rw [Target.file?, setTablespacePaths_nodes hlinked]
      rfl
    constructor
    · intro hn
      have hlevel := unwrapNew_unwanted hunwrap hn
      rw [hsame] at hlevel
      cases hi : b.backup.isIncremental with
      | false =>
        rw [hi] at hrest
        rw [hrest, hlevel]
      | true =>
        rw [hi, if_pos rfl] at hrest
        obtain ⟨base, hbase, hrest⟩ := hrest
        rw [(ih hrest).1, hlevel]
        intro hmem
        rw [getBaseFilesToUnwrap_ok hbase, mem_below] at hmem
        exact hn (mem_of_mem_filter hmem.1)
    · intro hn hpg
      have hlevel := unwrapNew_wanted hunwrap hn hpg
      rw [hsame] at hlevel
      cases hi : b.backup.isIncremental with
      | false =>
        rw [hi] at hrest
        rw [hrest, fileRun_stop hlevel (.inl hi)]
      | true =>
        rw [hi, if_pos rfl] at hrest
        obtain ⟨base, hbase, hrest⟩ := hrest
        have hbelow : name ∈ (cfg.below spec base result).filesToUnwrap ↔
            passesDown b.backup.files name = true ∧ (cfg.skipRedundantTars = true →
              (account (cfg.missingBlocks name) (result name)).1 = true) := by
          rw [mem_below, getBaseFilesToUnwrap_ok hbase, mem_filter, and_iff_right hn]
        by_cases hmem : name ∈ (cfg.below spec base result).filesToUnwrap
        · have hrun := (ih hrest).2 hmem hpg
          obtain ⟨hdir, hskip, -⟩ := below_dbDataDirectory cfg result spec base
          rw [hdir, hskip, below_missing hmem] at hrun
          rw [fileRun_on hlevel hi (hbelow.mp hmem).1 (hbelow.mp hmem).2, hrun]
        · rw [(ih hrest).1 hmem]
          apply fileRun_stop hlevel
          rw [hbelow, not_and_or, Classical.not_imp, Bool.not_eq_true, Bool.not_eq_true] at hmem
          exact .inr hmem

end WalG.Restore
