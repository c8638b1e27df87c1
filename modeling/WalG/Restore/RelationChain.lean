import WalG.Restore.MissingBlocks

/-! # A chain of backups of one relation file

Increments of one relation over its full backup.
-/
namespace WalG.Restore
open Foundation PageFile List

def relationName : Text := "/base/1/1".toList

/-- A backup of one relation file. -/
def relationBackup (v : Version) (hv : ∀ inc, v = .increment inc → inc.Fits) : StoredBackup where
  backup :=
    { files := [(relationName, ⟨v.isIncrement, false, 0⟩)]
      isIncremental := v.isIncrement
      tablespaceSpec := none
      tarFileSets := [("part_001.tar".toList, [relationName])]
      tars := [("part_001.tar".toList, [.regular relationName v.bytes])]
      pgControl := some (.regular pgControlPath [])
      walgBasebackupName := true }
  version name := if name = relationName then some v else none
  names_nodup := (by decide : [relationName, pgControlPath].Nodup)
  regular_iff name content := by
    simp only [Backup.tarEntries, map_cons, map_nil, flatten_cons, flatten_nil,
      append_nil, mem_singleton, TarEntry.regular.injEq, Option.ite_none_right_eq_some, Option.some.injEq]
    constructor
    · rintro ⟨rfl, rfl⟩
      exact ⟨v, ⟨rfl, rfl⟩, rfl⟩
    · rintro ⟨_, ⟨rfl, rfl⟩, rfl⟩
      exact ⟨rfl, rfl⟩
  isIncrement_iff name v' h := by
    obtain ⟨rfl, h⟩ := Option.ite_none_right_eq_some.mp h
    rw [← Option.some.inj h, lookup_cons_self]
    rfl
  skipped name h := by
    by_cases hn : name = relationName
    · subst hn
      rw [lookup_cons_self] at h
      cases h
    · rw [if_neg hn]
  header_final name kind h := by cases mem_singleton.mp h
  fits name inc h := hv inc (Option.some.inj (Option.ite_none_right_eq_some.mp h).2)
  listed := by
    refine .inr fun tar htar name content h => ?_
    obtain rfl := mem_singleton.mp htar
    obtain ⟨rfl, -⟩ := TarEntry.regular.inj (mem_singleton.mp h)
    rw [lookup_cons_self]
    exact mem_singleton_self _
  pgControl_regular entry h := ⟨[], (Option.some.inj h).symm⟩
  pgControl_undescribed := rfl
  pgControl_apart entry h := by
    rw [mem_singleton.mp h]
    exact (by decide : relationName ≠ pgControlPath)

theorem relationBackup_version (v : Version) (hv : ∀ inc, v = .increment inc → inc.Fits) :
    (relationBackup v hv).version relationName = some v := by
  simp [relationBackup]

theorem relationBackup_unwrap {v : Version} (hv : ∀ inc, v = .increment inc → inc.Fits)
    {directory : Text} {target : Target} {file file' : Option Bytes} {r : Option FileUnwrapResult}
    (hlocal : localFile (target.nodes relationName) = .ok file)
    (hu : v.unwrap (joinPath directory relationName) file = .ok (file', r)) :
    ∃ target' result, (relationBackup v hv).backup.unwrapNew directory [relationName] false target =
      .ok (target', result) ∧ target'.nodes relationName = file'.map .file := by
  have hversion := relationBackup_version v hv
  have hok : ∃ target' result, (relationBackup v hv).backup.unwrapNew directory [relationName] false
      target = .ok (target', result) := by
    refine unwrapNew_exists_ok (StoredBackup.extracted_nodup _ _ _) rfl fun entry hentry => ?_
    rcases mem_cons.mp hentry with rfl | hentry
    · refine ⟨(file'.map .file, r), ?_⟩
      rw [TarEntry.name, interpretNew_version hversion (mem_singleton_self _) directory hlocal, hu]
    · rw [mem_singleton.mp hentry]
      exact ⟨_, interpretNew_unselected _ (by decide) directory _⟩
  obtain ⟨target', result, hunwrap⟩ := hok
  refine ⟨target', result, hunwrap, ?_⟩
  obtain ⟨file₁, file₂, hlocal', hu', hnode⟩ :=
    unwrapNew_version hunwrap hversion (mem_singleton_self _)
  rw [hlocal] at hlocal'
  rw [← Except.ok.inj hlocal', hu] at hu'
  rw [hnode, ← (Prod.mk.inj (Except.ok.inj hu')).1]

theorem fits_of_increment {inc : Increment} (hf : inc.Fits) (inc' : Increment)
    (h : Version.increment inc = .increment inc') : inc'.Fits :=
  Version.increment.inj h ▸ hf

theorem fits_of_whole (content : Bytes) (inc : Increment)
    (h : Version.whole content = .increment inc) : inc.Fits := nomatch h

/-- The relation's increments, newest first, over the full backup. -/
def relationChain (incs : List { inc : Increment // inc.Fits }) (base : List Page) : List StoredBackup :=
  incs.map (fun inc => relationBackup (.increment inc.1) (fits_of_increment inc.2)) ++
    [relationBackup (.whole (joinBlocks base)) (fits_of_whole _)]

theorem relationChain_versions (incs : List { inc : Increment // inc.Fits }) (base : List Page) :
    versions relationName (relationChain incs base) =
      incs.map (fun inc => .increment inc.1) ++ [.whole (joinBlocks base)] := by
  induction incs with
  | nil => simp [relationChain, versions, relationBackup, Version.isIncrement]
  | cons inc incs ih =>
    rw [relationChain, map_cons, cons_append, ← relationChain, versions, ih, relationBackup_version]
    rfl

theorem relationChain_fetch (incs : List { inc : Increment // inc.Fits }) (base : List Page)
    {cfg : FetchConfig} (hfiles : cfg.filesToUnwrap = [relationName])
    (hskip : cfg.skipRedundantTars = false) (hspec : chooseTablespaceSpecification none cfg.tablespaceSpec = [])
    {target : Target} {file : Option Bytes} (hlocal : localFile (target.nodes relationName) = .ok file)
    (hpaged : file = none ∨ ∃ pages, file = some (joinBlocks (n := databasePageSize) pages)) :
    ∃ final, deltaFetchRecursionNew ((relationChain incs base).map StoredBackup.backup) cfg target =
      .ok final := by
  have hlinked : setTablespacePaths (chooseTablespaceSpecification none cfg.tablespaceSpec) target =
      .ok target := by
    rw [hspec]
    rfl
  induction incs generalizing cfg target file with
  | nil =>
    have hu : ∃ file' r, (Version.whole (joinBlocks base)).unwrap
        (joinPath cfg.dbDataDirectory relationName) file = .ok (file', r) := by
      rcases hpaged with rfl | ⟨pages, rfl⟩
      · exact ⟨_, _, unwrap_whole_new _ _⟩
      · simp only [Version.unwrap, Version.bytes, Version.isIncrement, Bool.false_eq_true, if_false,
          DefaultFileUnwrapper.unwrapExistingFile, restoreMissingPages_pages base pages]
        split_ifs <;> exact ⟨_, _, rfl⟩
    obtain ⟨file', r, hu⟩ := hu
    obtain ⟨target', result, hunwrap, -⟩ := relationBackup_unwrap (fits_of_whole _) hlocal hu
    rw [← hfiles, ← hskip] at hunwrap
    exact ⟨target', deltaFetchNew_cons_iff.mpr ⟨target, target', result, hlinked, hunwrap, rfl⟩⟩
  | cons inc incs ih =>
    have hu : ∃ pages r, (Version.increment inc.1).unwrap (joinPath cfg.dbDataDirectory relationName)
        file = .ok (some (joinBlocks (n := databasePageSize) pages), r) := by
      rcases hpaged with rfl | ⟨pages, rfl⟩
      · exact ⟨_, _, unwrap_increment_new inc.2 _⟩
      · exact ⟨_, _, unwrap_increment inc.2 _ pages⟩
    obtain ⟨pages, r, hu⟩ := hu
    obtain ⟨target', result, hunwrap, hnode⟩ :=
      relationBackup_unwrap (fits_of_increment inc.2) hlocal hu
    rw [← hfiles, ← hskip] at hunwrap
    have hbase : getBaseFilesToUnwrap [(relationName, ⟨true, false, 0⟩)] cfg.filesToUnwrap =
        .ok [relationName] := by
      rw [hfiles]
      rfl
    have hbelow := below_dbDataDirectory cfg result
      (chooseTablespaceSpecification none cfg.tablespaceSpec) [relationName]
    have hchosen : chooseTablespaceSpecification none (cfg.below
        (chooseTablespaceSpecification none cfg.tablespaceSpec) [relationName] result).tablespaceSpec =
          [] := by
      rw [hbelow.2.2]
      exact hspec
    have hlocal' : localFile (target'.nodes relationName) = .ok (some (joinBlocks pages)) := by
      rw [hnode]
      rfl
    obtain ⟨final, hfinal⟩ := ih (by simp [FetchConfig.below, hskip]) (hbelow.2.1.trans hskip) hchosen
      hlocal' (.inr ⟨pages, rfl⟩) (by rw [hchosen]; rfl)
    exact ⟨final, deltaFetchNew_cons_iff.mpr
      ⟨target, target', result, hlinked, hunwrap, [relationName], hbase, hfinal⟩⟩

end WalG.Restore
