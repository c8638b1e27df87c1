import WalG.Restore.CountedRun
import WalG.Restore.RelationChain
import WalG.Restore.SkipSimulation

/-! # Skipping redundant tars and the restored files

The skipping fetch restores the files of the full one exactly when every wanted file is counted
right and the newest backup still extracts a tar where it has to bring its pg_control.
-/
namespace WalG.Restore
open Foundation PageFile List

variable {b : StoredBackup} {chain : List StoredBackup} {files : List Text} {skip : Bool}
  {spec : Option TablespaceSpec} {directory name : Text}

/-- pg_control comes after the other tars, so it needs one of them extracted. -/
def Backup.writesPgControl (backup : Backup) (files : List Text) (skip : Bool) : Prop :=
  backup.isPgControlRequired = true ∧ ∃ tar ∈ backup.tars,
    (!skip || backup.shouldUnwrapTar files tar.1) = true

/-- Where pg_control is wanted and the backup has tars, one of them is not
redundant. -/
def Backup.SafePgControl (backup : Backup) (files : List Text) : Prop :=
  pgControlPath ∈ files → backup.isPgControlRequired = true → backup.tars ≠ [] →
    ∃ tar ∈ backup.tars, backup.shouldUnwrapTar files tar.1 = true

theorem getTarsToExtract_ne_nil (backup : Backup) :
    backup.getTarsToExtract files skip ≠ [] ↔
      ∃ tar ∈ backup.tars, (!skip || backup.shouldUnwrapTar files tar.1) = true := by
  rw [Backup.getTarsToExtract, Ne, map_eq_nil_iff, filter_eq_nil_iff]
  push Not
  rfl

theorem Backup.writesPgControl.all {backup : Backup} (h : backup.writesPgControl files true) :
    backup.writesPgControl files false := by
  obtain ⟨hreq, tar, htar, -⟩ := h
  exact ⟨hreq, tar, htar, rfl⟩

theorem safePgControl_iff (backup : Backup) (h : pgControlPath ∈ files) :
    backup.SafePgControl files ↔
      (backup.writesPgControl files false → backup.writesPgControl files true) := by
  unfold Backup.SafePgControl Backup.writesPgControl
  simp only [Bool.not_false, Bool.true_or, Bool.not_true, Bool.false_or, and_true]
  constructor
  · rintro hsafe ⟨hreq, tar, htar⟩
    exact ⟨hreq, hsafe h hreq (ne_nil_of_mem htar)⟩
  · intro hsafe _ hreq hne
    obtain ⟨tar, htar⟩ := exists_mem_of_ne_nil _ hne
    exact (hsafe ⟨hreq, tar, htar⟩).2

theorem StoredBackup.mem_extracted_pgControl {entry : TarEntry} (b : StoredBackup)
    (hentry : b.backup.pgControl = some entry) (hw : b.backup.writesPgControl files skip) :
    entry ∈ b.backup.extracted files skip := by
  obtain ⟨hreq, htar⟩ := hw
  rw [Backup.extracted, if_neg ((getTarsToExtract_ne_nil _).mpr htar), hreq, if_pos rfl, hentry]
  exact mem_append_right _ (mem_singleton_self entry)

theorem StoredBackup.writesPgControl_of_mem (b : StoredBackup)
    (h : pgControlPath ∈ (b.backup.extracted files skip).map TarEntry.name) : b.backup.writesPgControl files skip := by
  obtain ⟨entry, hentry, hname⟩ := mem_map.mp h
  have hapart : entry ∉ b.backup.tarEntries := fun htar => b.pgControl_apart entry htar hname
  rw [Backup.extracted] at hentry
  split_ifs at hentry with hnil hreq
  · cases hentry
  · exact ⟨hreq, (getTarsToExtract_ne_nil _).mp hnil⟩
  · rw [append_nil] at hentry
    exact absurd ((Sublist.flatten (filter_sublist.map _)).subset hentry) hapart

theorem unwrapNew_pgControl {target target' : Target} {result : UnwrapResult}
    (h : b.backup.unwrapNew directory files skip target = .ok (target', result))
    (hfiles : pgControlPath ∈ files) (hnone : target.nodes pgControlPath = none) :
    (¬ b.backup.writesPgControl files skip → target'.file? pgControlPath = none) ∧
      (b.backup.writesPgControl files skip → ∃ content, b.backup.pgControl = some (.regular pgControlPath content) ∧
          target'.file? pgControlPath = some content) := by
  constructor
  · intro hw
    rw [Target.file?, (unwrapNew_unextracted h fun hmem => hw (b.writesPgControl_of_mem hmem)).1, hnone]
    rfl
  · intro hw
    obtain ⟨hpg, -, hentries, -⟩ := (unwrapNew_eq_ok_iff (b.extracted_nodup files skip)).mp h
    rw [hw.1, Bool.true_and, Option.isNone_eq_false_iff, Option.isSome_iff_exists] at hpg
    obtain ⟨entry, hentry⟩ := hpg
    obtain ⟨content, rfl⟩ := b.pgControl_regular entry hentry
    have hstep := hentries _ (b.mem_extracted_pgControl hentry hw)
    have hsel : (b.backup.interpreter files).selects pgControlPath = true := decide_eq_true hfiles
    have hinc : (b.backup.interpreter files).isIncremented pgControlPath = false := by
      simp only [FileTarInterpreter.isIncremented, Backup.interpreter, b.pgControl_undescribed]
    simp only [TarEntry.name, hnone, interpretNew, hsel, localFile, unwrapRegularFileNew, hinc,
      unwrapNewFile, Bool.not_true, Bool.false_eq_true, if_false] at hstep
    refine ⟨content, hentry, ?_⟩
    rw [Target.file?, ← (Prod.mk.inj (Except.ok.inj hstep)).1]
    rfl

theorem deltaFetchNew_pgControl {older : List StoredBackup} {cfg : FetchConfig} {target final : Target}
    (h : deltaFetchRecursionNew ((b :: older).map StoredBackup.backup) cfg target = .ok final)
    (hfiles : pgControlPath ∈ cfg.filesToUnwrap) (hnone : target.nodes pgControlPath = none) :
    (¬ b.backup.writesPgControl cfg.filesToUnwrap cfg.skipRedundantTars → final.file? pgControlPath = none) ∧
      (b.backup.writesPgControl cfg.filesToUnwrap cfg.skipRedundantTars → ∃ content,
        b.backup.pgControl = some (.regular pgControlPath content) ∧ final.file? pgControlPath = some content) := by
  obtain ⟨linked, target', result, hlinked, hunwrap, hrest⟩ := deltaFetchNew_cons_iff.mp h
  have hsame : final.file? pgControlPath = target'.file? pgControlPath := by
    cases hi : b.backup.isIncremental with
    | false =>
      rw [hi] at hrest
      rw [hrest]
    | true =>
      rw [hi, if_pos rfl] at hrest
      obtain ⟨base, hbase, hrest⟩ := hrest
      refine (deltaFetchNew_file? older hrest).1 fun hmem => ?_
      have hdown := (mem_filter.mp (getBaseFilesToUnwrap_ok hbase ▸ (mem_below.mp hmem).1)).2
      rw [passesDown, b.pgControl_undescribed] at hdown
      cases hdown
  rw [hsame]
  exact unwrapNew_pgControl hunwrap hfiles (by rw [setTablespacePaths_nodes hlinked, hnone])

section Agreement

variable {off on : Target}
  (hoff : fetchNew false (chain.map StoredBackup.backup) spec directory files = .ok off)
  (hon : fetchNew true (chain.map StoredBackup.backup) spec directory files = .ok on)

include hoff hon

theorem fetchNew_same_file_iff (hn : name ∈ files) (hpg : name ≠ pgControlPath) :
    on.file? name = off.file? name ↔
      SafeVersions (joinPath directory name) (versions name chain) := by
  have hfull := (deltaFetchNew_file? chain hoff).2 hn hpg
  have hskip := (deltaFetchNew_file? chain hon).2 hn hpg
  rw [← fileRun_true_iff chain hfull]
  rw [show fileRun true (joinPath directory name) name chain none none = .ok (on.file? name) from hskip,
    Except.ok.injEq]

theorem fetchNew_same_pgControl_iff (hfiles : pgControlPath ∈ files) :
    on.file? pgControlPath = off.file? pgControlPath ↔
      ∀ top ∈ chain.head?, top.backup.SafePgControl files := by
  cases chain with
  | nil => cases hoff
  | cons b older =>
    have hfull := deltaFetchNew_pgControl hoff hfiles rfl
    have hskip := deltaFetchNew_pgControl hon hfiles rfl
    simp only [head?_cons, Option.mem_some_iff, forall_eq', safePgControl_iff _ hfiles]
    by_cases hw : b.backup.writesPgControl files false
    · obtain ⟨content, hcontent, hwritten⟩ := hfull.2 hw
      rw [imp_iff_right hw, hwritten]
      constructor
      · intro hsame
        by_contra hw'
        rw [hskip.1 hw'] at hsame
        cases hsame
      · intro hw'
        obtain ⟨content', hcontent', hwritten'⟩ := hskip.2 hw'
        obtain rfl : content = content' := by
          rw [hcontent] at hcontent'
          exact (TarEntry.regular.inj (Option.some.inj hcontent')).2
        exact hwritten'
    · rw [hfull.1 hw, hskip.1 fun hw' => hw hw'.all]
      exact iff_of_true rfl fun h => absurd h hw

end Agreement

theorem fetchNew_skip_exists {off : Target}
    (hoff : fetchNew false (chain.map StoredBackup.backup) spec directory files = .ok off) :
    ∃ on, fetchNew true (chain.map StoredBackup.backup) spec directory files = .ok on := by
  have hs : Simulates files files Target.empty.nodes Target.empty.nodes :=
    ⟨fun _ h => h, fun _ _ => rfl, fun _ _ => .inl rfl, fun _ h hn => absurd h hn⟩
  have hskip : ∀ skip, (⟨files, fun _ => none, spec, directory, skip⟩ : FetchConfig).skipRedundantTars =
      skip := fun _ => rfl
  exact hs.run chain (hskip false) (hskip true) rfl rfl rfl hoff

/-- A fetch that succeeds with all tars succeeds without the redundant ones. It
leaves the same files exactly when the newest backup still brings its pg_control
and, for every wanted file, no older page is missing where the counter stops. -/
theorem fetchNew_skip_agrees_iff (chain : List StoredBackup) (spec : Option TablespaceSpec)
    (directory : Text) (files : List Text) {off : Target}
    (hoff : fetchNew false (chain.map StoredBackup.backup) spec directory files = .ok off) :
    (∃ on, fetchNew true (chain.map StoredBackup.backup) spec directory files = .ok on ∧
        ∀ name, on.file? name = off.file? name) ↔
      (∀ top ∈ chain.head?, top.backup.SafePgControl files) ∧
        ∀ name ∈ files, name ≠ pgControlPath →
          SafeVersions (joinPath directory name) (versions name chain) := by
  obtain ⟨on, hon⟩ := fetchNew_skip_exists hoff
  have hunwanted : ∀ name ∉ files, on.file? name = off.file? name := by
    intro name hn
    rw [(deltaFetchNew_file? chain hoff).1 hn, (deltaFetchNew_file? chain hon).1 hn]
  have hpgSafe : pgControlPath ∉ files → ∀ top ∈ chain.head?, top.backup.SafePgControl files :=
    fun hn _ _ hfiles => absurd hfiles hn
  constructor
  · rintro ⟨on', hon', hsame⟩
    obtain rfl : on = on' := Except.ok.inj (hon.symm.trans hon')
    refine ⟨?_, fun name hn hpg => (fetchNew_same_file_iff hoff hon hn hpg).mp (hsame name)⟩
    by_cases hfiles : pgControlPath ∈ files
    · exact (fetchNew_same_pgControl_iff hoff hon hfiles).mp (hsame _)
    · exact hpgSafe hfiles
  · rintro ⟨hpgControl, hversions⟩
    refine ⟨on, hon, fun name => ?_⟩
    by_cases hn : name ∈ files
    · by_cases hpg : name = pgControlPath
      · subst hpg
        exact (fetchNew_same_pgControl_iff hoff hon hn).mpr hpgControl
      · exact (fetchNew_same_file_iff hoff hon hn hpg).mpr (hversions name hn hpg)
    · exact hunwanted name hn

theorem fetchNew_relationChain (incs : List { inc : Increment // inc.Fits }) (base : List Page) :
    ∃ off, fetchNew false ((relationChain incs base).map StoredBackup.backup) none [] [relationName] =
      .ok off := by
  have hskip : (⟨[relationName], fun _ => none, none, [], false⟩ : FetchConfig).skipRedundantTars =
      false := rfl
  exact relationChain_fetch incs base rfl hskip rfl rfl (.inl rfl)

/-- The newest increment stores every page, so the base is not read. -/
theorem fetchNew_skip_agrees_stored :
    ∃ off, fetchNew false ((relationChain [⟨singlePage (filledPage 1), by decide⟩]
        [filledPage 2]).map StoredBackup.backup) none [] [relationName] = .ok off ∧
      ∃ on, fetchNew true ((relationChain [⟨singlePage (filledPage 1), by decide⟩]
        [filledPage 2]).map StoredBackup.backup) none [] [relationName] = .ok on ∧
      ∀ name, on.file? name = off.file? name := by
  obtain ⟨off, hoff⟩ := fetchNew_relationChain [⟨singlePage (filledPage 1), by decide⟩] [filledPage 2]
  refine ⟨off, hoff, (fetchNew_skip_agrees_iff _ none [] _ hoff).mpr ⟨fun top _ hpg => ?_, ?_⟩⟩
  · exact absurd hpg (by decide)
  · intro name hname _
    rw [mem_singleton.mp hname, relationChain_versions]
    intro b hb
    obtain rfl : b = 0 := Nat.lt_one_iff.mp hb
    exact .inl (filledPage_not_missing (by decide))

/-- The increment of a two-page relation whose first page changed. -/
def firstPageOfTwo (page : Page) : { inc : Increment // inc.Fits } :=
  ⟨.single 2 0 page Nat.two_pos Increment.two_pages_lt, (by decide : 1 * sizeofInt32 < 2 ^ 32)⟩

/-- The first page was zeroed after a delta that had stored it. -/
def zeroedChain : List StoredBackup :=
  relationChain [firstPageOfTwo emptyPage, firstPageOfTwo (filledPage 1)] [filledPage 1, filledPage 1]

theorem firstPageOfTwo_page? (page : Page) (b : ℕ) :
    (firstPageOfTwo page).1.page? b = if b = 0 then some page else none := by
  cases b <;> rfl

theorem firstPageOfTwo_writeCount {zero : Page} (hz : isMissing zero = true) (page : Page) :
    writeCount (firstPageOfTwo zero).1 [] (firstPageOfTwo page).1 = 1 := by
  have hblocks : (firstPageOfTwo page).1.blocks = [(0, page)] := rfl
  have hcurrent : currentPage (firstPageOfTwo zero).1 [] 0 = zero := by
    rw [currentPage, firstPageOfTwo_page?]
    rfl
  rw [writeCount, hblocks, countP_singleton, hcurrent, hz]
  rfl

theorem zeroed_not_safe {zero page : Page} (hz : isMissing zero = true) (hp : isMissing page = false) :
    ¬ SafeVersions relationName (versions relationName
      (relationChain [firstPageOfTwo zero, firstPageOfTwo page] [page, page])) := by
  have hpc : (firstPageOfTwo zero).1.pageCount = 2 := rfl
  have hpaged : isPagedFile ((firstPageOfTwo zero).1.pageCount * databasePageSize) relationName =
      true := by
    rw [isPagedFile_pages (by rw [hpc]; decide)]
    decide +kernel
  have hlen : (firstPageOfTwo zero).1.blocks.length = 1 := rfl
  have hcurrent : currentPage (firstPageOfTwo zero).1 [(firstPageOfTwo page).1] 1 = emptyPage := by
    simp only [currentPage, filterMap_cons, filterMap_nil, firstPageOfTwo_page?,
      if_neg Nat.one_ne_zero, Option.getD_none, pick, foldl_nil]
  have hsize : 0 < databasePageSize := by decide
  have hlater : laterPages true 1 [.whole (joinBlocks [page, page])] = [page] := by
    simp only [laterPages, filterMap_cons, filterMap_nil, Version.page?, if_true,
      wholeBlocks_joinBlocks _ hsize, getElem?_cons_succ, getElem?_cons_zero]
  rw [relationChain_versions]
  simp only [map_cons, map_nil, cons_append, nil_append, SafeVersions, Accounted, firstPageOfTwo_writeCount hz, hpaged]
  rw [hpc, hlen, if_neg (by decide), if_pos (by decide)]
  intro hsafe
  have hcovers := hsafe 1 (by decide)
  rw [hcurrent, hlater] at hcovers
  exact not_covers_emptyPage hp hcovers

/-- A page with a zero header is written twice and counted twice, so the other
page of the file is never restored. -/
theorem fetchNew_skip_loses_page :
    ∃ off, fetchNew false (zeroedChain.map StoredBackup.backup) none [] [relationName] = .ok off ∧
      ¬ ∃ on, fetchNew true (zeroedChain.map StoredBackup.backup) none [] [relationName] = .ok on ∧
        ∀ name, on.file? name = off.file? name := by
  obtain ⟨off, hoff⟩ := fetchNew_relationChain
    [firstPageOfTwo emptyPage, firstPageOfTwo (filledPage 1)] [filledPage 1, filledPage 1]
  refine ⟨off, hoff, ?_⟩
  rintro ⟨on, hon, hsame⟩
  exact zeroed_not_safe emptyPage_isMissing (filledPage_not_missing (by decide))
    ((fetchNew_same_file_iff hoff hon (mem_singleton_self _) (by decide)).mp (hsame relationName))

end WalG.Restore
