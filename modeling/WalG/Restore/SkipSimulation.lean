import WalG.Restore.FileRun

/-! # Skipping redundant tars against reading all of them

Two reverse fetches of the same chain run side by side, one with and one without
`skipRedundantTars`.
-/
namespace WalG.Restore
open Foundation PageFile List

/-- The nodes of one name in the skipping and in the full fetch. -/
def Near (on off : Option Node) : Prop :=
  on = off ∨ (on = none ∧ ∃ kind : HeaderKind, off = some kind.node) ∨
    ∃ c c', on = some (.file c) ∧ off = some (.file c')

structure Simulates (wanted kept : List Text) (off on : Text → Option Node) : Prop where
  subset : ∀ name ∈ kept, name ∈ wanted
  same : ∀ name ∈ kept, on name = off name
  near : ∀ name, name ≠ pgControlPath → Near (on name) (off name)
  stopped : ∀ name ∈ wanted, name ∉ kept → name ≠ pgControlPath →
    ∃ c c', on name = some (.file c) ∧ off name = some (.file c')

variable {b : StoredBackup} {wanted kept : List Text} {off on off' on' : Target}
  {directory name : Text} {offResult onResult : UnwrapResult}

theorem mem_extracted_all {entry : TarEntry} (h : entry ∈ b.backup.tarEntries) (files : List Text) :
    entry ∈ b.backup.extracted files false := by
  have htars : b.backup.getTarsToExtract files false = b.backup.tars.map Prod.snd := by
    simp [Backup.getTarsToExtract]
  rw [Backup.extracted, htars, if_neg]
  · exact mem_append_left _ h
  · intro hnil
    rw [Backup.tarEntries, hnil] at h
    cases h

theorem extracted_subset (backup : Backup) (wanted kept : List Text) {entry : TarEntry}
    (h : entry ∈ backup.extracted kept true) : entry ∈ backup.extracted wanted false := by
  have hsub : ∀ tar ∈ backup.getTarsToExtract kept true, tar ∈ backup.getTarsToExtract wanted false := by
    intro tar htar
    obtain ⟨t, ht, rfl⟩ := mem_map.mp htar
    exact mem_map.mpr ⟨t, mem_filter.mpr ⟨(mem_filter.mp ht).1, rfl⟩, rfl⟩
  unfold Backup.extracted at h ⊢
  by_cases hnil : backup.getTarsToExtract kept true = []
  · rw [if_pos hnil] at h
    cases h
  · rw [if_neg hnil] at h
    obtain ⟨tar, htar⟩ := exists_mem_of_ne_nil _ hnil
    rw [if_neg (ne_nil_of_mem (hsub tar htar))]
    rcases mem_append.mp h with h | h
    · obtain ⟨tar, htar, hmem⟩ := mem_flatten.mp h
      exact mem_append_left _ (mem_flatten.mpr ⟨tar, hsub tar htar, hmem⟩)
    · exact mem_append_right _ h

theorem interpretNew_selected {files files' : List Text} {content : Bytes} (backup : Backup)
    (h : name ∈ files) (h' : name ∈ files') (state : Option Node × Option FileUnwrapResult) :
    interpretNew (backup.interpreter files) directory (.regular name content) state =
      interpretNew (backup.interpreter files') directory (.regular name content) state := by
  have hsel : (backup.interpreter files).selects name = true := decide_eq_true h
  have hsel' : (backup.interpreter files').selects name = true := decide_eq_true h'
  simp only [interpretNew, hsel, hsel', unwrapRegularFileNew]
  rfl

theorem Near.header {on off : Option Node} {kind : HeaderKind} (h : Near on off)
    (hoff : off = none ∨ off = some .directory ∧ kind = .directory) :
    interpretHeader kind on = .ok (some kind.node) ∧ Near on (some kind.node) := by
  rcases hoff with rfl | ⟨rfl, rfl⟩
  · rcases h with rfl | ⟨-, k, hk⟩ | ⟨c, c', -, hc⟩
    · exact ⟨by cases kind <;> rfl, .inr (.inl ⟨rfl, kind, rfl⟩)⟩
    · cases hk
    · cases hc
  · rcases h with rfl | ⟨rfl, -⟩ | ⟨c, c', -, hc⟩
    · exact ⟨rfl, .inl rfl⟩
    · exact ⟨rfl, .inr (.inl ⟨rfl, .directory, rfl⟩)⟩
    · cases hc

theorem StoredBackup.stored_cases (b : StoredBackup) (name : Text) :
    (∃ kind, .header name kind ∈ b.backup.tarEntries) ∨ (∃ v, b.version name = some v) ∨
      b.version name = none ∧ ∀ kind files skip, .header name kind ∉ b.backup.extracted files skip := by
  by_cases hh : ∃ kind, .header name kind ∈ b.backup.tarEntries
  · exact .inl hh
  · cases hv : b.version name with
    | some v => exact .inr (.inl ⟨v, rfl⟩)
    | none =>
      refine .inr (.inr ⟨rfl, fun kind files skip hk => ?_⟩)
      rcases b.mem_extracted_cases hk with htar | ⟨c, hc⟩
      · exact hh ⟨kind, htar⟩
      · cases hc

theorem Simulates.unwrapNew_ok (hs : Simulates wanted kept off.nodes on.nodes)
    (hoff : b.backup.unwrapNew directory wanted false off = .ok (off', offResult)) :
    ∃ on' onResult, b.backup.unwrapNew directory kept true on = .ok (on', onResult) := by
  obtain ⟨hpg, -, hentries, -⟩ := (unwrapNew_eq_ok_iff (b.extracted_nodup wanted false)).mp hoff
  refine unwrapNew_exists_ok (b.extracted_nodup kept true) hpg fun entry hentry => ?_
  have hstep := hentries entry (extracted_subset b.backup wanted kept hentry)
  cases entry with
  | header n kind =>
    have hn : n ≠ pgControlPath := by
      rcases b.mem_extracted_cases hentry with htar | ⟨c, hc⟩
      · exact b.pgControl_apart _ htar
      · cases hc
    obtain ⟨-, hnode⟩ := interpretHeader_ok (interpretNew_header_ok hstep).1
    exact ⟨(some kind.node, none), by rw [interpretNew, TarEntry.name,
      ((hs.near n hn).header hnode).1]; rfl⟩
  | regular n content =>
    by_cases hk : n ∈ kept
    · rw [TarEntry.name] at hstep ⊢
      rw [interpretNew_selected b.backup hk (hs.subset n hk), hs.same n hk, hstep]
      exact ⟨_, rfl⟩
    · exact ⟨_, interpretNew_unselected b.backup hk directory _⟩

theorem unwrapNewFile_some {options : BackupFileOptions} {data : Bytes} {file : Option Bytes}
    {r : FileUnwrapResult} (h : unwrapNewFile options (.ofBytes data) = (file, .ok r)) : ∃ c, file = some c := by
  unfold unwrapNewFile at h
  split_ifs at h
  · rcases hc : createFileFromIncrement (.ofBytes data) [] with ⟨f, e | m⟩ <;> rw [hc] at h <;> cases h
    exact ⟨_, rfl⟩
  · cases h
    exact ⟨_, rfl⟩

theorem unwrapExistingFile_some {options : BackupFileOptions} {data content : Bytes}
    {file : Option Bytes} {r : FileUnwrapResult}
    (h : DefaultFileUnwrapper.unwrapExistingFile options (.ofBytes data) content = (file, .ok r)) :
    ∃ c, file = some c := by
  unfold DefaultFileUnwrapper.unwrapExistingFile writeIncrement at h
  split_ifs at h
  · rcases hc : writePagesFromIncrement (.ofBytes data) content false with ⟨f, e | m⟩ <;>
      rw [hc] at h <;> cases h
    exact ⟨_, rfl⟩
  · rcases hc : restoreMissingPages (.ofBytes data) content with ⟨f, e | m⟩ <;> rw [hc] at h <;> cases h
    exact ⟨_, rfl⟩
  · cases h
    exact ⟨_, rfl⟩

theorem Version.unwrap_file {path : Text} {v : Version} {file file' : Option Bytes}
    {r : Option FileUnwrapResult} (h : v.unwrap path file = .ok (file', r)) : ∃ c, file' = some c := by
  unfold Version.unwrap at h
  cases file with
  | none =>
    rcases hu : unwrapNewFile ⟨v.isIncrement, false⟩ (.ofBytes v.bytes) with ⟨f, e | m⟩ <;>
      simp only [hu] at h <;> cases h
    exact unwrapNewFile_some hu
  | some content =>
    rcases hu : DefaultFileUnwrapper.unwrapExistingFile
      ⟨v.isIncrement, isPagedFile content.length path⟩ (.ofBytes v.bytes) content with ⟨f, e | m⟩ <;>
      simp only [hu] at h <;> cases h
    exact unwrapExistingFile_some hu

section Level

variable (hs : Simulates wanted kept off.nodes on.nodes)
  (hoff : b.backup.unwrapNew directory wanted false off = .ok (off', offResult))
  (hon : b.backup.unwrapNew directory kept true on = .ok (on', onResult))

include hs hoff hon

theorem Simulates.header_step {kind : HeaderKind} (h : .header name kind ∈ b.backup.tarEntries) :
    Near (on'.nodes name) (off'.nodes name) ∧ onResult name = none ∧
      ∀ c, off.nodes name ≠ some (.file c) := by
  have hpg := b.pgControl_apart _ h
  obtain ⟨hoffNode, hcases⟩ := interpretHeader_ok (unwrapNew_header hoff (mem_extracted_all h wanted)).1
  obtain ⟨honStep, hnear⟩ := (hs.near name hpg).header hcases
  have hfile : ∀ c, off.nodes name ≠ some (.file c) := by
    intro c hc
    rcases hcases with hn | ⟨hn, -⟩ <;> rw [hn] at hc <;> cases hc
  rw [hoffNode]
  by_cases hk : .header name kind ∈ b.backup.extracted kept true
  · obtain ⟨hstep, hres⟩ := unwrapNew_header hon hk
    rw [honStep] at hstep
    exact ⟨.inl (Except.ok.inj hstep).symm, hres, hfile⟩
  · have hn : name ∉ (b.backup.extracted kept true).map TarEntry.name := fun hn =>
      hk (StoredBackup.mem_extracted_of_name h hn)
    obtain ⟨hsame, hres⟩ := unwrapNew_unextracted hon hn
    rw [hsame]
    exact ⟨hnear, hres, hfile⟩

theorem Simulates.version_step {v : Version} (hv : b.version name = some v) :
    (name ∈ kept → on'.nodes name = off'.nodes name ∧ ∃ c, on'.nodes name = some (.file c)) ∧
      (name ∉ kept → on'.nodes name = on.nodes name) ∧
      (name ∉ wanted → off'.nodes name = off.nodes name) ∧
      (name ∈ wanted → ∃ c, off'.nodes name = some (.file c)) := by
  have hheader : ∀ kind files skip, .header name kind ∉ b.backup.extracted files skip := by
    intro kind files skip hk
    rcases b.mem_extracted_cases hk with htar | ⟨c, hc⟩
    · rw [StoredBackup.version_header htar] at hv
      cases hv
    · cases hc
  refine ⟨fun hk => ?_, fun hk => unwrapNew_unselected hon (fun kind => hheader kind _ _) hk,
    fun hw => unwrapNew_unselected hoff (fun kind => hheader kind _ _) hw, fun hw => ?_⟩
  · obtain ⟨file, file', hlocal, hu, hnode⟩ := unwrapNew_version hon hv hk
    obtain ⟨file₁, file₁', hlocal₁, hu₁, hnode₁⟩ := unwrapNew_version hoff hv (hs.subset name hk)
    rw [hs.same name hk, hlocal₁] at hlocal
    cases hlocal
    rw [hu] at hu₁
    obtain rfl := (Prod.mk.inj (Except.ok.inj hu₁)).1
    obtain ⟨c, rfl⟩ := Version.unwrap_file hu
    exact ⟨hnode.trans hnode₁.symm, c, hnode⟩
  · obtain ⟨file, file', -, hu, hnode⟩ := unwrapNew_version hoff hv hw
    obtain ⟨c, rfl⟩ := Version.unwrap_file hu
    exact ⟨c, hnode⟩

omit hs in
theorem absent_step (hv : b.version name = none)
    (hh : ∀ kind files skip, .header name kind ∉ b.backup.extracted files skip) (hpg : name ≠ pgControlPath) :
    on'.nodes name = on.nodes name ∧ off'.nodes name = off.nodes name ∧ onResult name = none := by
  obtain ⟨hsame, hres⟩ := unwrapNew_absent hon hv (fun kind => hh kind _ _) hpg
  exact ⟨hsame, (unwrapNew_absent hoff hv (fun kind => hh kind _ _) hpg).1, hres⟩

theorem Simulates.near_below (hpg : name ≠ pgControlPath) : Near (on'.nodes name) (off'.nodes name) := by
  rcases b.stored_cases name with ⟨kind, hk⟩ | ⟨v, hv⟩ | ⟨hv, hh⟩
  · exact (hs.header_step hoff hon hk).1
  · obtain ⟨hkept, hunkept, hunwanted, hwanted⟩ := hs.version_step hoff hon hv
    by_cases hk : name ∈ kept
    · exact .inl (hkept hk).1
    · rw [hunkept hk]
      by_cases hw : name ∈ wanted
      · obtain ⟨c, -, hc, -⟩ := hs.stopped name hw hk hpg
        obtain ⟨c', hc'⟩ := hwanted hw
        exact .inr (.inr ⟨c, c', hc, hc'⟩)
      · rw [hunwanted hw]
        exact hs.near name hpg
  · obtain ⟨honSame, hoffSame, -⟩ := absent_step hoff hon hv hh hpg
    rw [honSame, hoffSame]
    exact hs.near name hpg

theorem Simulates.same_below (hk : name ∈ kept) (hdown : passesDown b.backup.files name = true) :
    on'.nodes name = off'.nodes name ∧ (onResult name ≠ none → ∃ c, on'.nodes name = some (.file c)) := by
  have hpg : name ≠ pgControlPath := by
    rintro rfl
    rw [passesDown, b.pgControl_undescribed] at hdown
    cases hdown
  rcases b.stored_cases name with ⟨kind, hh⟩ | ⟨v, hv⟩ | ⟨hv, hh⟩
  · rw [b.header_final name kind hh] at hdown
    cases hdown
  · obtain ⟨hsame, hfile⟩ := (hs.version_step hoff hon hv).1 hk
    exact ⟨hsame, fun _ => hfile⟩
  · obtain ⟨honSame, hoffSame, hres⟩ := absent_step hoff hon hv hh hpg
    rw [honSame, hoffSame]
    exact ⟨hs.same name hk, fun h => absurd hres h⟩

theorem Simulates.stopped_below (hw : name ∈ wanted) (hk : name ∉ kept) (hpg : name ≠ pgControlPath) :
    ∃ c c', on'.nodes name = some (.file c) ∧ off'.nodes name = some (.file c') := by
  obtain ⟨c, c', hc, hc'⟩ := hs.stopped name hw hk hpg
  rcases b.stored_cases name with ⟨kind, hh⟩ | ⟨v, hv⟩ | ⟨hv, hh⟩
  · exact absurd hc' ((hs.header_step hoff hon hh).2.2 c')
  · obtain ⟨-, hunkept, -, hwanted⟩ := hs.version_step hoff hon hv
    obtain ⟨c'', hc''⟩ := hwanted hw
    exact ⟨c, c'', by rw [hunkept hk, hc], hc''⟩
  · obtain ⟨honSame, hoffSame, -⟩ := absent_step hoff hon hv hh hpg
    exact ⟨c, c', by rw [honSame, hc], by rw [hoffSame, hc']⟩

/-- What one level leaves: a file that the skipping fetch gave up has a result. -/
theorem Simulates.below {kept' : List Text}
    (hkept : ∀ name ∈ kept', name ∈ kept ∧ passesDown b.backup.files name = true)
    (hgone : ∀ name ∈ kept, passesDown b.backup.files name = true → name ∉ kept' → onResult name ≠ none) :
    Simulates (wanted.filter (passesDown b.backup.files)) kept' off'.nodes on'.nodes where
  subset name hn := mem_filter.mpr ⟨hs.subset name (hkept name hn).1, (hkept name hn).2⟩
  same name hn := (hs.same_below hoff hon (hkept name hn).1 (hkept name hn).2).1
  near name hpg := hs.near_below hoff hon hpg
  stopped name hw hn hpg := by
    obtain ⟨hw, hdown⟩ := mem_filter.mp hw
    by_cases hk : name ∈ kept
    · obtain ⟨hsame, hfile⟩ := hs.same_below hoff hon hk hdown
      obtain ⟨c, hc⟩ := hfile (hgone name hk hdown hn)
      exact ⟨c, c, hc, hsame ▸ hc⟩
    · exact hs.stopped_below hoff hon hw hk hpg

end Level

theorem setTablespacePaths_same_links {spec : TablespaceSpec} {s s' t : Target}
    (h : setTablespacePaths spec s = .ok s') (hlinks : t.tablespaceLinks = s.tablespaceLinks) :
    ∃ t', setTablespacePaths spec t = .ok t' ∧ t'.tablespaceLinks = s'.tablespaceLinks := by
  induction spec generalizing s t with
  | nil =>
    cases h
    exact ⟨t, rfl, hlinks⟩
  | cons link spec ih =>
    rw [setTablespacePaths] at h ⊢
    rw [hlinks]
    split_ifs at h ⊢
    exact ih h rfl

theorem unwrapNew_links {files : List Text} {skip : Bool} {target target' : Target}
    {result : UnwrapResult} (h : b.backup.unwrapNew directory files skip target = .ok (target', result)) :
    target'.tablespaceLinks = target.tablespaceLinks :=
  ((unwrapNew_eq_ok_iff (b.extracted_nodup files skip)).mp h).2.1

theorem getBaseFilesToUnwrap_subset {files : BackupFileList} {base : List Text}
    (h : getBaseFilesToUnwrap files wanted = .ok base) (hsub : ∀ name ∈ kept, name ∈ wanted) :
    getBaseFilesToUnwrap files kept = .ok (kept.filter (passesDown files)) := by
  unfold getBaseFilesToUnwrap at h ⊢
  split_ifs at h with hall
  rw [if_pos]
  rw [all_eq_true] at hall ⊢
  exact fun name hn => hall name (hsub name hn)

/-- The configurations for the backup below are related as well. -/
theorem Simulates.below_config {cfg cfg' : FetchConfig} {base : List Text}
    (hs : Simulates cfg.filesToUnwrap cfg'.filesToUnwrap off.nodes on.nodes)
    (spec spec' : TablespaceSpec) (hskip : cfg.skipRedundantTars = false)
    (hoff : b.backup.unwrapNew directory cfg.filesToUnwrap false off = .ok (off', offResult))
    (hon : b.backup.unwrapNew directory cfg'.filesToUnwrap true on = .ok (on', onResult))
    (hbase : base = cfg.filesToUnwrap.filter (passesDown b.backup.files)) :
    Simulates (cfg.below spec base offResult).filesToUnwrap
      (cfg'.below spec' (cfg'.filesToUnwrap.filter (passesDown b.backup.files)) onResult).filesToUnwrap
      off'.nodes on'.nodes := by
  have hfull : (cfg.below spec base offResult).filesToUnwrap =
      cfg.filesToUnwrap.filter (passesDown b.backup.files) := by
    simp [FetchConfig.below, hskip, hbase]
  rw [hfull]
  refine hs.below hoff hon (fun name hn => ?_) (fun name hk hdown hn hres => ?_)
  · exact mem_filter.mp (mem_below.mp hn).1
  · refine hn (mem_below.mpr ⟨mem_filter.mpr ⟨hk, hdown⟩, fun _ => ?_⟩)
    rw [hres]
    rfl

/-- Where the full fetch succeeds, the skipping one does. -/
theorem Simulates.run (chain : List StoredBackup) {cfg cfg' : FetchConfig} {final : Target}
    (hskip : cfg.skipRedundantTars = false) (hskip' : cfg'.skipRedundantTars = true)
    (hdir : cfg'.dbDataDirectory = cfg.dbDataDirectory) (hspec : cfg'.tablespaceSpec = cfg.tablespaceSpec)
    (hs : Simulates cfg.filesToUnwrap cfg'.filesToUnwrap off.nodes on.nodes)
    (hlinks : on.tablespaceLinks = off.tablespaceLinks)
    (h : deltaFetchRecursionNew (chain.map StoredBackup.backup) cfg off = .ok final) :
    ∃ final', deltaFetchRecursionNew (chain.map StoredBackup.backup) cfg' on = .ok final' := by
  induction chain generalizing cfg cfg' off on with
  | nil => cases h
  | cons b older ih =>
    obtain ⟨linked, off', offResult, hlinked, hunwrap, hrest⟩ := deltaFetchNew_cons_iff.mp h
    obtain ⟨linked', hlinked', hlinks'⟩ := setTablespacePaths_same_links hlinked hlinks
    rw [← hspec] at hlinked'
    have hs' : Simulates cfg.filesToUnwrap cfg'.filesToUnwrap linked.nodes linked'.nodes := by
      rw [setTablespacePaths_nodes hlinked, setTablespacePaths_nodes hlinked']
      exact hs
    rw [hskip] at hunwrap
    obtain ⟨on', onResult, hon⟩ := hs'.unwrapNew_ok hunwrap
    have hon' : b.backup.unwrapNew cfg'.dbDataDirectory cfg'.filesToUnwrap cfg'.skipRedundantTars
        linked' = .ok (on', onResult) := by
      rw [hdir, hskip']
      exact hon
    cases hi : b.backup.isIncremental with
    | false => exact ⟨on', deltaFetchNew_cons_iff.mpr ⟨linked', on', onResult, hlinked', hon', by simp [hi]⟩⟩
    | true =>
      rw [hi, if_pos rfl] at hrest
      obtain ⟨base, hbase, hrest⟩ := hrest
      have hbase' := getBaseFilesToUnwrap_subset hbase hs.subset
      have hconf := below_dbDataDirectory
      have hlinksBelow : on'.tablespaceLinks = off'.tablespaceLinks := by
        rw [unwrapNew_links hon, unwrapNew_links hunwrap, hlinks']
      have hsim := hs'.below_config
        (chooseTablespaceSpecification b.backup.tablespaceSpec cfg.tablespaceSpec)
        (chooseTablespaceSpecification b.backup.tablespaceSpec cfg'.tablespaceSpec) hskip hunwrap hon
        (getBaseFilesToUnwrap_ok hbase)
      obtain ⟨final', hfinal⟩ := ih ((hconf cfg offResult _ base).2.1.trans hskip)
        ((hconf cfg' onResult _ _).2.1.trans hskip') (by rw [(hconf _ _ _ _).1, (hconf _ _ _ _).1, hdir])
        (by rw [(hconf _ _ _ _).2.2, (hconf _ _ _ _).2.2, hspec]) hsim hlinksBelow hrest
      exact ⟨final', deltaFetchNew_cons_iff.mpr ⟨linked', on', onResult, hlinked', hon', by
        rw [hi, if_pos rfl]
        exact ⟨_, hbase', hfinal⟩⟩⟩

end WalG.Restore
