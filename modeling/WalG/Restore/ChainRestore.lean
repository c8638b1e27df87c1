import WalG.Restore.ChainFetch

/-! # Which delta chains restore

The recursion restores the newest state of every replayable chain.
-/
namespace WalG.Restore
open Foundation PageFile WalG.Backup List

variable {push : Push} {older : List Push} {selected : List Text} {name : Text}

/-- Fetching the newest push into an empty directory, without a file mask. -/
def fetchAll (push : Push) (older : List Push) : Except FetchError Target :=
  deltaFetchRecursionOld true (backups (push :: older)) none
    (push.backup (fileList older)).getFilesToUnwrap .empty

/-- The restored regular files, the label files aside, are those of the state. -/
def Restores (push : Push) (older : List Push) : Prop :=
  ∃ target, fetchAll push older = .ok target ∧
    ∀ name ∉ [backupLabelFilename, tablespaceMapFilename], target.file? name = push.state.file? name

structure Restorable (push : Push) (older : List Push) : Prop extends Replayable push older where
  links : older = [] ∨ push.tablespaceSpec.getD [] = []

theorem fetchAll_eq (push : Push) (older : List Push) :
    fetchAll push older = deltaFetchRecursionOld true (backups (push :: older))
      (some (push.tablespaceSpec.getD [])) (push.backup (fileList older)).getFilesToUnwrap .empty :=
  rfl

theorem described_getFilesToUnwrap
    (h : name ∈ (push.backup (fileList older)).getFilesToUnwrap) : Described (push :: older) name := by
  rcases mem_append.mp h with h | h
  · obtain ⟨described, hd, rfl⟩ := mem_map.mp h
    refine .inl ?_
    rw [lookup_eq_some_of_mem Push.files_nodup hd]
    rfl
  · exact .inr h

theorem mem_getFilesToUnwrap (hf : Faithful push older) {content : Bytes} (h : push.state.file? name = some content) :
    name ∈ (push.backup (fileList older)).getFilesToUnwrap := by
  by_cases hu : name ∈ utilityFilePaths
  · exact mem_append_right _ hu
  · obtain ⟨file, hfile, rfl, -⟩ := mem_stored_of_file? hu h
    rcases described_stored hf hfile with hd | hd
    · obtain ⟨d, hd⟩ := Option.isSome_iff_exists.mp hd
      exact mem_append_left _ (mem_map.mpr ⟨_, mem_of_lookup_eq_some hd, rfl⟩)
    · exact absurd hd hu

theorem fetched_file? (hf : Faithful push older) (links : List Text)
    (h : name ∉ [backupLabelFilename, tablespaceMapFilename]) :
    Target.file? ⟨fetched (push :: older) (push.backup (fileList older)).getFilesToUnwrap, links⟩ name =
      push.state.file? name := by
  have hlabel : push.labels.lookup name = none :=
    lookup_eq_none_of_notMem fun hl => h (push.labels_names name hl)
  cases hc : push.state.file? name with
  | some content =>
    simp only [Target.file?, fetched, if_pos (mem_getFilesToUnwrap hf hc), fileWithLabels?, hlabel, hc]
    rfl
  | none =>
    simp only [Target.file?, fetched, fileWithLabels?, hlabel, hc, Option.or_none, ite_self,
      Option.map_none, Option.none_or]
    rcases headerAt (push :: older) name with _ | _ | _ <;> rfl

theorem EachPush.imp {P Q : Push → List Push → Prop} (hPQ : ∀ push older, P push older → Q push older)
    {chain : List Push} (h : EachPush P chain) : EachPush Q chain := by
  induction chain with
  | nil => trivial
  | cons push older ih => exact ⟨hPQ _ _ h.1, ih h.2⟩

theorem restores_of_restorable (hf : EachPush Faithful (push :: older))
    (hr : EachPush Restorable (push :: older)) : Restores push older := by
  have hspec : older = [] ∧ (push.tablespaceSpec.getD []).Nodup ∨ push.tablespaceSpec.getD [] = [] :=
    hr.1.links.imp (fun h => ⟨h, push.links_nodup⟩) id
  refine ⟨_, deltaFetch_fetched push older hf (hr.imp fun _ _ h => h.toReplayable)
    (fun name h => described_getFilesToUnwrap h) _ hspec, fun name hn => ?_⟩
  exact fetched_file? hf.1 _ hn

theorem deltaFetch_links {spec : TablespaceSpec} {target target' : Target}
    (h : deltaFetchRecursionOld true (backups (push :: older)) (some spec) selected target =
      .ok target') : spec ⊆ target'.tablespaceLinks := by
  have hlast : ∃ t t' base, setTablespacePaths spec t = .ok t' ∧
      (push.backup base).unwrapOld selected t' = .ok target' := by
    cases older with
    | nil =>
      obtain ⟨t, ht, hu⟩ := bind_ok h
      exact ⟨target, t, none, ht, hu⟩
    | cons previous older =>
      obtain ⟨base, -, h⟩ := bind_ok h
      obtain ⟨t, -, h⟩ := bind_ok h
      obtain ⟨t', ht, hu⟩ := bind_ok h
      exact ⟨t, t', _, ht, hu⟩
  obtain ⟨t, t', base, ht, hu⟩ := hlast
  rw [unwrapOld_links hu]
  exact fun link hl => (setTablespacePaths_ok ht).2 (mem_append_left _ hl)

/-- A restored delta has no links to make, and its own entries were unwrapped
over the nodes of the states below. -/
theorem unwrapOld_of_fetchAll (hf : EachPush Faithful (push :: older))
    (hr : EachPush Replayable older) {target : Target} (h : fetchAll push older = .ok target) :
    (older = [] ∨ push.tablespaceSpec.getD [] = []) ∧
      ∃ links, (push.backup (fileList older)).unwrapOld
        (push.backup (fileList older)).getFilesToUnwrap
        ⟨fetched older (wantedBelow push older (push.backup (fileList older)).getFilesToUnwrap), links⟩ =
          .ok target := by
  rw [fetchAll_eq] at h
  cases older with
  | nil =>
    rw [deltaFetch_full, chooseTablespaceSpecification, setTablespacePaths_empty push.links_nodup
      (wantedBelow push [] (push.backup (fileList [])).getFilesToUnwrap)] at h
    exact ⟨.inl rfl, _, h⟩
  | cons previous older =>
    rw [deltaFetch_delta, getBaseFilesToUnwrap_described fun name hn => described_getFilesToUnwrap hn] at h
    obtain ⟨base, hbase, h⟩ := bind_ok h
    cases hbase
    obtain ⟨t, hbelow, h⟩ := bind_ok h
    obtain ⟨t', ht, hu⟩ := bind_ok h
    rw [chooseTablespaceSpecification] at hbelow ht
    have hnil : push.tablespaceSpec.getD [] = [] := by
      rw [eq_nil_iff_forall_not_mem]
      exact fun link hl => (setTablespacePaths_ok ht).1 link hl (deltaFetch_links hbelow hl)
    rw [hnil] at hbelow ht
    rw [deltaFetch_fetched previous older hf.2 hr (fun name hn => described_wantedBelow hf.1 hn) []
      (.inr rfl)] at hbelow
    cases hbelow
    cases ht
    exact ⟨.inr hnil, _, hu⟩

theorem headerAt_of_lastFile? (hr : EachPush Replayable older) (hu : name ∉ utilityFilePaths)
    {content : Bytes} (h : lastFile? older name = some content) : headerAt older name = none := by
  cases older with
  | nil => rfl
  | cons push older =>
    obtain ⟨file, hfile, rfl, -⟩ := mem_stored_of_file? hu h
    rw [headerAt_cons_of_notMem (push.state.notMem_headers hfile)]
    exact hr.1.files file hfile

theorem lastFile?_of_fetched (hu : name ∉ utilityFilePaths) {content : Bytes}
    (h : fetched older selected name = some (.file content)) : lastFile? older name = some content := by
  cases older with
  | nil => cases h
  | cons push older =>
    have hlabel : push.labels.lookup name = none :=
      lookup_eq_none_of_notMem fun hl => hu (Push.labels_utility hl)
    rw [fetched, fileWithLabels?, hlabel, Option.none_or] at h
    rcases Option.or_eq_some_iff.mp h with h | ⟨-, h⟩
    · obtain ⟨c, hc, heq⟩ := Option.map_eq_some_iff.mp h
      cases heq
      split_ifs at hc
      exact hc
    · obtain ⟨kind, -, hk⟩ := Option.map_eq_some_iff.mp h
      cases kind <;> cases hk

theorem notMem_allEntries_of_skipped {base : Option BackupFileList} {file : Text × DiskFile}
    (h : file ∈ push.state.stored) (hp : (push.bundle base).addToBundle file.1 file.2 = .skipped) :
    file.1 ∉ (push.allEntries base).map TarEntry.name := by
  have hu := push.state.notMem_utility (push.state.mem_storedNames h)
  rw [Push.mem_allEntries_names]
  rintro (hheader | ⟨file', h', hname, packed, hp'⟩ | hlabel | hpg)
  · exact push.state.notMem_headers h hheader
  · have hsame := lookup_eq_some_of_mem push.state.stored_nodup h'
    rw [hname, lookup_eq_some_of_mem push.state.stored_nodup h] at hsame
    rw [hname, ← Option.some.inj hsame, hp] at hp'
    cases hp'
  · exact hu (Push.labels_utility hlabel)
  · exact hu (hpg ▸ mem_cons_self)

section Converse

variable {nodes : Text → Option Node} {links : List Text}
  (hentries : ∀ entry ∈ push.allEntries (fileList older),
    interpretOld ((push.backup (fileList older)).interpreter selected) entry
        (fetched older (wantedBelow push older selected) entry.name) = .ok (nodes entry.name))

theorem bitmaps_of_restored (hrest : ∀ k ∉ (push.allEntries (fileList older)).map TarEntry.name,
      nodes k = fetched older (wantedBelow push older selected) k)
    (hfiles : ∀ name ∉ [backupLabelFilename, tablespaceMapFilename],
      Target.file? ⟨nodes, links⟩ name = push.state.file? name)
    (file : Text × DiskFile) (h : file ∈ push.state.stored)
    (hskip : (push.bundle (fileList older)).skipsWithoutBitmap file.1 file.2) :
    lastFile? older file.1 = some file.2.content := by
  have hu := push.state.notMem_utility (push.state.mem_storedNames h)
  have hnode := hrest _ (notMem_allEntries_of_skipped h (Bundle.addToBundle_skipsWithoutBitmap hskip))
  have hfile := hfiles file.1 fun hl => hu (mem_cons_of_mem _ hl)
  rw [lookup_stored h, Target.file?, Node.content?.eq_def] at hfile
  apply lastFile?_of_fetched hu
  rw [← hnode]
  split at hfile
  · rename_i content hcontent
    exact hcontent.trans (by rw [Option.some.inj hfile])
  · cases hfile

include hentries

theorem headers_of_restored (header : Text × HeaderKind × ℤ)
    (h : header ∈ push.state.storedHeaders) (kind : HeaderKind)
    (hk : headerAt older header.1 = some kind) : header.2.1 = .directory ∧ kind = .directory := by
  have hstep := hentries _ (Push.mem_allEntries.mpr (.inl ⟨header, h, rfl⟩))
  rw [TarEntry.name, fetched_of_notMem (notMem_wantedBelow (Push.passesDown_header h)), hk] at hstep
  obtain ⟨name, headerKind, mTime⟩ := header
  cases headerKind <;> cases kind <;> first | exact ⟨rfl, rfl⟩ | cases hstep

theorem files_of_restored (hf : Faithful push older) (hr : EachPush Replayable older)
    (hbitmaps : ∀ file ∈ push.state.stored, (push.bundle (fileList older)).skipsWithoutBitmap file.1 file.2 →
        lastFile? older file.1 = some file.2.content)
    (file : Text × DiskFile) (h : file ∈ push.state.stored) (hs : file.1 ∈ selected) :
    headerAt older file.1 = none := by
  have hu := push.state.notMem_utility (push.state.mem_storedNames h)
  rcases (push.bundle (fileList older)).addToBundle_cases file.1 file.2 with
    ⟨-, hsame | hskip⟩ | hc | ⟨data, hc, -⟩ | ⟨e, hc⟩
  · exact headerAt_of_lastFile? hr hu (hf.unchanged file h hsame)
  · exact headerAt_of_lastFile? hr hu (hbitmaps file h hskip)
  · have hdown : passesDown (push.files (fileList older)) file.1 = false :=
      Push.passesDown_stored h (by rw [hc]; rfl)
    have hstep := hentries _ (Push.mem_allEntries.mpr (.inr (.inl ⟨file, h, _, hc, rfl⟩)))
    rw [TarEntry.name, fetched_of_notMem (notMem_wantedBelow hdown), interpretOld, selects_of_mem hs] at hstep
    rcases hk : headerAt older file.1 with _ | _ | _
    · rfl
    all_goals
      rw [hk] at hstep
      cases hstep
  · obtain ⟨old, hold, -⟩ := hf.increment file h data hc
    exact headerAt_of_lastFile? hr hu hold
  · exact absurd hc (hf.built file h e)

end Converse

variable (pages : List Page) (mTime : ℤ) {new old : List Page}

theorem restorable_of_restores (hf : EachPush Faithful (push :: older))
    (hr : EachPush Replayable older) (h : Restores push older) : Restorable push older := by
  obtain ⟨target, hfetch, hfiles⟩ := h
  obtain ⟨hspec, links, hunwrap⟩ := unwrapOld_of_fetchAll hf hr hfetch
  obtain ⟨nodes, links'⟩ := target
  obtain rfl : links' = links := unwrapOld_links hunwrap
  obtain ⟨hentries, hrest⟩ := unwrapOld_eq_ok_iff.mp hunwrap
  have hbitmaps := bitmaps_of_restored hrest hfiles
  refine ⟨⟨hbitmaps, fun file h => ?_, headers_of_restored hentries⟩, hspec⟩
  exact files_of_restored hentries hf.1 hr hbitmaps file h (mem_getFilesToUnwrap hf.1 (lookup_stored h))

/-- In a faithful chain every push restores its state exactly when every push is
replayable over the ones below and only the full one has tablespace links. -/
theorem eachPush_restores_iff (chain : List Push) (hf : EachPush Faithful chain) :
    EachPush Restores chain ↔ EachPush Restorable chain := by
  induction chain with
  | nil => exact Iff.rfl
  | cons push older ih =>
    have hbelow := ih hf.2
    constructor
    · rintro ⟨h, ho⟩
      have hro := hbelow.mp ho
      exact ⟨restorable_of_restores hf (hro.imp fun _ _ h => h.toReplayable) h, hro⟩
    · rintro ⟨h, ho⟩
      exact ⟨restores_of_restorable hf ⟨h, ho⟩, hbelow.mpr ho⟩

/-- A directory with one relation file, pushed with a delta map that knows no
relation. -/
def relationPush (pages : List Page) (mTime : ℤ) : Push where
  state :=
    { regular := [(firstSegment.path ['/'], ⟨joinBlocks pages, mTime⟩)]
      headers := []
      pgControl := []
      names_nodup := nodup_singleton _
      not_utility := by simpa using (by decide : firstSegment.path ['/'] ∉ utilityFilePaths) }
  directory := []
  incrementFromLsn := 0
  deltaMap := some newPagedFileDeltaMap
  tablespaceSpec := none
  labels := []
  compose := fun entries => [("part_001.tar".toList, entries)]
  links_nodup := nodup_nil
  labels_nodup := nodup_nil
  labels_names := fun _ h => (not_mem_nil h).elim
  compose_perm := fun entries => by simp
  compose_ne := fun _ => cons_ne_nil _ _

theorem relationPush_stored : (relationPush pages mTime).state.stored =
      [(firstSegment.path ['/'], ⟨joinBlocks pages, mTime⟩)] := by
  have hx : isExcluded (firstSegment.path ['/']) = false := by decide
  simp [DirState.stored, relationPush, hx]

theorem relationPush_mem :
    (firstSegment.path ['/'], ⟨joinBlocks pages, mTime⟩) ∈ (relationPush pages mTime).state.stored := by
  rw [relationPush_stored]
  exact mem_cons_self

theorem relationPush_full : ((relationPush pages mTime).bundle none).addToBundle (firstSegment.path ['/'])
      ⟨joinBlocks pages, mTime⟩ = .packed ⟨false, joinBlocks pages⟩ := by
  have hu : ((relationPush pages mTime).bundle none).isUnchanged (firstSegment.path ['/'])
      ⟨joinBlocks pages, mTime⟩ = false := rfl
  have hi : ((relationPush pages mTime).bundle none).isIncremented (firstSegment.path ['/'])
      ⟨joinBlocks pages, mTime⟩ = false := rfl
  simp only [Bundle.addToBundle, hu, hi, packFileIntoTar, createFileReadCloser,
    startReadingFile_self, Bool.false_eq_true, if_false]

theorem relationPush_skips (hne : new ≠ []) :
    ((relationPush new 1).bundle (fileList [relationPush old 0])).skipsWithoutBitmap
      (firstSegment.path ['/']) ⟨joinBlocks new, 1⟩ := by
  have hbase : ((relationPush new 1).bundle (fileList [relationPush old 0])).baseFile
      (firstSegment.path ['/']) = some ⟨false, false, 0⟩ := by
    refine Push.files_lookup_stored (relationPush_mem old 0) ?_
    rw [fileList, relationPush_full]
    rfl
  have hpaged : isPagedFile (joinBlocks new).length ([] ++ firstSegment.path ['/']) = true := by
    rw [nil_append, joinBlocks_length, isPagedFile_pages (by simpa using hne)]
    decide
  refine ⟨?_, ?_, ?_⟩
  · rw [Bundle.isUnchanged, hbase]
    rfl
  · rw [Bundle.isIncremented, hbase]
    exact hpaged
  · exact (by decide : TarBallFilePacker.getDeltaBitmapFor ⟨some newPagedFileDeltaMap, 0⟩
      (firstSegment.path ['/']) = .error .noBitmapFound)

theorem relationPush_faithful (hne : new ≠ []) : EachPush Faithful [relationPush new 1, relationPush old 0] := by
  have hskip : ((relationPush new 1).bundle (fileList [relationPush old 0])).skipsWithoutBitmap
      (firstSegment.path ['/']) ⟨joinBlocks new, 1⟩ := relationPush_skips hne
  have hadd := Bundle.addToBundle_skipsWithoutBitmap hskip
  have hfull := relationPush_full old 0
  refine ⟨⟨?_, ?_, ?_⟩, ⟨?_, ?_, ?_⟩, trivial⟩ <;> intro file h <;>
    rw [relationPush_stored, mem_singleton] at h <;> subst h
  · exact fun e he => by cases hadd.symm.trans he
  · exact fun hu => by rw [hskip.1] at hu; cases hu
  · exact fun data hp => by cases hadd.symm.trans hp
  · exact fun e he => by rw [fileList, hfull] at he; cases he
  · exact fun hu => by cases hu
  · exact fun data hp => by rw [fileList, hfull] at hp; cases hp

/-- A touched but unchanged relation file is restored from the full backup. -/
theorem eachPush_restores_touched : EachPush Restores [relationPush [emptyPage] 1, relationPush [emptyPage] 0] := by
  refine (eachPush_restores_iff _ (relationPush_faithful (cons_ne_nil _ _))).mpr
    ⟨⟨⟨?_, fun _ _ => rfl, fun _ h => (not_mem_nil h).elim⟩, .inr rfl⟩,
      ⟨⟨?_, fun _ _ => rfl, fun _ h => (not_mem_nil h).elim⟩, .inl rfl⟩, trivial⟩ <;>
    intro file h hskip <;> rw [relationPush_stored, mem_singleton] at h <;> subst h
  · have hbefore := lookup_stored (relationPush_mem [emptyPage] 0)
    exact hbefore
  · exact absurd hskip.2.1 (by simp [Bundle.isIncremented, Push.bundle, fileList])

/-- The relation lost its last page between the two pushes; the restore brings
the page back. -/
theorem relationPush_truncated_not_restored :
    EachPush Faithful [relationPush [emptyPage] 1, relationPush [emptyPage, emptyPage] 0] ∧
      ¬ EachPush Restores [relationPush [emptyPage] 1, relationPush [emptyPage, emptyPage] 0] := by
  have hf : EachPush Faithful [relationPush [emptyPage] 1, relationPush [emptyPage, emptyPage] 0] :=
    relationPush_faithful (cons_ne_nil _ _)
  refine ⟨hf, fun h => ?_⟩
  have hbase := restorable_of_restores hf.2 trivial h.2.1
  have hdelta := restorable_of_restores hf ⟨hbase.toReplayable, trivial⟩ h.1
  have hlast := hdelta.bitmaps _ (relationPush_mem [emptyPage] 1)
    (relationPush_skips (cons_ne_nil _ _))
  have hbefore : (relationPush [emptyPage, emptyPage] 0).state.file? (firstSegment.path ['/']) =
      some (joinBlocks [emptyPage, emptyPage]) :=
    lookup_stored (relationPush_mem [emptyPage, emptyPage] 0)
  rw [lastFile?, hbefore] at hlast
  have hpages := congrArg length (joinBlocks_injective (by decide) (Option.some.inj hlast))
  simp at hpages

end WalG.Restore
