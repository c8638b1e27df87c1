import WalG.Backup.Bundle

/-! # The backup of a directory state

A push stores the headers and regular files of a directory state, the label files and pg_control.
-/
namespace WalG.Backup
open Foundation PageFile Restore List

/-- The objects the walk meets, without the contents of excluded directories.
Their names are paths below the data directory and start with a slash. -/
structure DirState where
  regular : List (Text × DiskFile)
  headers : List (Text × HeaderKind × ℤ)
  pgControl : Bytes
  names_nodup : (headers.map Prod.fst ++ regular.map Prod.fst).Nodup
  not_utility : ∀ name ∈ headers.map Prod.fst ++ regular.map Prod.fst, name ∉ utilityFilePaths

/-- The regular files that are not excluded. -/
def DirState.stored (state : DirState) : List (Text × DiskFile) :=
  state.regular.filter fun file => !isExcluded file.1

/-- An excluded directory is stored, without its contents. -/
def DirState.storedHeaders (state : DirState) : List (Text × HeaderKind × ℤ) :=
  state.headers.filter fun header => header.2.1 = .directory || !isExcluded header.1

/-- The regular files a restore has to bring back. -/
def DirState.file? (state : DirState) (name : Text) : Option Bytes :=
  if name = pgControlPath then some state.pgControl
  else (state.stored.lookup name).map (·.content)

/-- One backup-push: the state of the directory, the switches of the bundle, the
label files and the way the composer spreads the entries over tars. -/
structure Push where
  state : DirState
  directory : Text
  incrementFromLsn : ℕ
  deltaMap : Option PagedFileDeltaMap
  tablespaceSpec : Option TablespaceSpec
  labels : List (Text × Bytes)
  compose : List TarEntry → List (Text × List TarEntry)
  links_nodup : (tablespaceSpec.getD []).Nodup
  labels_nodup : (labels.map Prod.fst).Nodup
  labels_names : ∀ name ∈ labels.map Prod.fst, name ∈ [backupLabelFilename, tablespaceMapFilename]
  compose_perm : ∀ entries, ((compose entries).map Prod.snd).flatten.Perm entries
  compose_ne : ∀ entries, compose entries ≠ []

/-- The bundle of a full push, or of a delta over the file list of its base. -/
def Push.bundle (push : Push) (base : Option BackupFileList) : Bundle where
  directory := push.directory
  incrementFromLsn := base.map fun _ => push.incrementFromLsn
  incrementFromFiles := base.getD []
  forceIncremental := false
  deltaMap := push.deltaMap

/-- The description in the file list; a file that vanished has none. -/
def describe (mTime : ℤ) : PackResult → Option BackupFileDescription
  | .skipped => some ⟨false, true, mTime⟩
  | .packed file => some ⟨file.isIncremented, false, mTime⟩
  | _ => none

def Push.describeFile (push : Push) (base : Option BackupFileList) (file : Text × DiskFile) :
    Option (Text × BackupFileDescription) :=
  (describe file.2.mTime ((push.bundle base).addToBundle file.1 file.2)).map (file.1, ·)

def Push.files (push : Push) (base : Option BackupFileList) : BackupFileList :=
  (push.state.storedHeaders.map fun header => (header.1, ⟨false, false, header.2.2⟩)) ++
    push.state.stored.filterMap (push.describeFile base)

def Push.entryOf (push : Push) (base : Option BackupFileList) (file : Text × DiskFile) :
    Option TarEntry :=
  match (push.bundle base).addToBundle file.1 file.2 with
  | .packed packed => some (.regular file.1 packed.data)
  | _ => none

def Push.entries (push : Push) (base : Option BackupFileList) : List TarEntry :=
  (push.state.storedHeaders.map fun header => .header header.1 header.2.1) ++
    push.state.stored.filterMap (push.entryOf base) ++
      push.labels.map fun label => .regular label.1 label.2

def Push.backup (push : Push) (base : Option BackupFileList) : Backup where
  files := push.files base
  isIncremental := base.isSome
  tablespaceSpec := push.tablespaceSpec
  tarFileSets := (push.compose (push.entries base)).map fun tar => (tar.1, tar.2.map TarEntry.name)
  tars := push.compose (push.entries base)
  pgControl := some (.regular pgControlPath push.state.pgControl)
  walgBasebackupName := true

/-- The entries of all tars, pg_control last. -/
def Push.allEntries (push : Push) (base : Option BackupFileList) : List TarEntry :=
  push.entries base ++ [.regular pgControlPath push.state.pgControl]

variable {push : Push} {base : Option BackupFileList} (state : DirState) {name : Text} {file : Text × DiskFile}

theorem DirState.storedNames_sublist : Sublist (state.storedHeaders.map Prod.fst ++ state.stored.map Prod.fst)
      (state.headers.map Prod.fst ++ state.regular.map Prod.fst) :=
  (filter_sublist.map _).append (filter_sublist.map _)

theorem DirState.storedNames_nodup : (state.storedHeaders.map Prod.fst ++ state.stored.map Prod.fst).Nodup :=
  state.names_nodup.sublist state.storedNames_sublist

theorem DirState.stored_nodup : (state.stored.map Prod.fst).Nodup :=
  (nodup_append.mp state.storedNames_nodup).2.1

theorem DirState.storedHeaders_nodup : (state.storedHeaders.map Prod.fst).Nodup :=
  (nodup_append.mp state.storedNames_nodup).1

theorem DirState.mem_storedNames (h : file ∈ state.stored) :
    file.1 ∈ state.storedHeaders.map Prod.fst ++ state.stored.map Prod.fst :=
  mem_append_right _ (mem_map_of_mem h)

theorem DirState.notMem_headers (h : file ∈ state.stored) : file.1 ∉ state.storedHeaders.map Prod.fst := fun hh =>
  (nodup_append.mp state.storedNames_nodup).2.2 _ hh _ (mem_map_of_mem h) rfl

theorem DirState.notMem_utility (h : name ∈ state.storedHeaders.map Prod.fst ++ state.stored.map Prod.fst) :
    name ∉ utilityFilePaths :=
  state.not_utility name (state.storedNames_sublist.subset h)

theorem Push.describeFile_name {described : Text × BackupFileDescription}
    (h : push.describeFile base file = some described) : described.1 = file.1 := by
  obtain ⟨d, -, rfl⟩ := Option.map_eq_some_iff.mp h
  rfl

theorem Push.files_nodup : ((push.files base).map Prod.fst).Nodup := by
  refine push.state.storedNames_nodup.sublist ?_
  rw [Push.files, map_append, map_map]
  exact (Sublist.refl _).append (filterMap_map_sublist (fun _ _ => Push.describeFile_name) _)

theorem Push.files_lookup_header {header : Text × HeaderKind × ℤ} (h : header ∈ push.state.storedHeaders) :
    (push.files base).lookup header.1 = some ⟨false, false, header.2.2⟩ :=
  lookup_eq_some_of_mem Push.files_nodup
    (mem_append_left _ (mem_map.mpr ⟨header, h, rfl⟩))

theorem Push.files_lookup_stored (h : file ∈ push.state.stored) {description : BackupFileDescription}
    (hd : describe file.2.mTime ((push.bundle base).addToBundle file.1 file.2) = some description) :
    (push.files base).lookup file.1 = some description := by
  refine (lookup_eq_some_iff_mem Push.files_nodup).mpr (mem_append_right _ ?_)
  exact mem_filterMap.mpr ⟨file, h, by rw [Push.describeFile, hd]; rfl⟩

theorem Push.files_lookup_none (h : name ∉ push.state.storedHeaders.map Prod.fst ++ push.state.stored.map Prod.fst) :
    (push.files base).lookup name = none := by
  apply lookup_eq_none_of_notMem
  intro hmem
  rw [Push.files, map_append, map_map] at hmem
  refine h ((Sublist.refl _).append (filterMap_map_sublist (h := Prod.fst)
    (fun _ _ => Push.describeFile_name) push.state.stored) |>.subset hmem)

theorem Push.entryOf_name {entry : TarEntry} (h : push.entryOf base file = some entry) : entry.name = file.1 := by
  unfold Push.entryOf at h
  split at h
  · cases h
    rfl
  · cases h

theorem Push.labels_utility (h : name ∈ push.labels.map Prod.fst) :
    name ∈ utilityFilePaths := mem_cons_of_mem _ (push.labels_names name h)

theorem Push.labels_ne_pgControl (h : name ∈ push.labels.map Prod.fst) : name ≠ pgControlPath := by
  rintro rfl
  have := push.labels_names _ h
  revert this
  decide

theorem Push.allEntries_nodup : ((push.allEntries base).map TarEntry.name).Nodup := by
  have hsub : Sublist
      ((push.state.storedHeaders.map fun header => TarEntry.header header.1 header.2.1).map
          TarEntry.name ++ (push.state.stored.filterMap (push.entryOf base)).map TarEntry.name)
      (push.state.storedHeaders.map Prod.fst ++ push.state.stored.map Prod.fst) := by
    rw [map_map]
    exact (Sublist.refl _).append (filterMap_map_sublist (fun _ _ => Push.entryOf_name) _)
  have hlabels : (push.labels.map fun label => TarEntry.regular label.1 label.2).map TarEntry.name =
      push.labels.map Prod.fst := by
    rw [map_map]
    rfl
  rw [Push.allEntries, Push.entries, map_append, map_append, map_append, hlabels]
  refine nodup_append.mpr ⟨nodup_append.mpr ⟨push.state.storedNames_nodup.sublist hsub,
    push.labels_nodup, ?_⟩, nodup_singleton _, ?_⟩
  · rintro name hname _ hlabel rfl
    exact push.state.notMem_utility (hsub.subset hname) (Push.labels_utility hlabel)
  · intro name hname _ hpg
    rw [map_singleton, mem_singleton] at hpg
    subst hpg
    rcases mem_append.mp hname with hname | hlabel
    · rintro rfl
      exact push.state.notMem_utility (hsub.subset hname) mem_cons_self
    · exact Push.labels_ne_pgControl hlabel

theorem Push.mem_allEntries {entry : TarEntry} : entry ∈ push.allEntries base ↔
    (∃ header ∈ push.state.storedHeaders, entry = .header header.1 header.2.1) ∨
    (∃ file ∈ push.state.stored, ∃ packed, (push.bundle base).addToBundle file.1 file.2 = .packed packed ∧
        entry = .regular file.1 packed.data) ∨
    (∃ label ∈ push.labels, entry = .regular label.1 label.2) ∨
      entry = .regular pgControlPath push.state.pgControl := by
  have hentry : ∀ file, push.entryOf base file = some entry ↔
      ∃ packed, (push.bundle base).addToBundle file.1 file.2 = .packed packed ∧
        entry = .regular file.1 packed.data := by
    intro file
    unfold Push.entryOf
    cases (push.bundle base).addToBundle file.1 file.2 <;> simp [eq_comm]
  simp only [Push.allEntries, Push.entries, mem_append, mem_map, mem_filterMap,
    mem_singleton, hentry, or_assoc, eq_comm (b := entry)]

theorem Push.mem_allEntries_names : name ∈ (push.allEntries base).map TarEntry.name ↔
      name ∈ push.state.storedHeaders.map Prod.fst ∨
      (∃ file ∈ push.state.stored, file.1 = name ∧
        ∃ packed, (push.bundle base).addToBundle file.1 file.2 = .packed packed) ∨
      name ∈ push.labels.map Prod.fst ∨ name = pgControlPath := by
  simp only [mem_map, Push.mem_allEntries]
  constructor
  · rintro ⟨entry, ⟨header, h, rfl⟩ | ⟨file, h, packed, hp, rfl⟩ | ⟨label, h, rfl⟩ | rfl, rfl⟩
    · exact .inl ⟨header, h, rfl⟩
    · exact .inr (.inl ⟨file, h, rfl, packed, hp⟩)
    · exact .inr (.inr (.inl ⟨label, h, rfl⟩))
    · exact .inr (.inr (.inr rfl))
  · rintro (⟨header, h, rfl⟩ | ⟨file, h, rfl, packed, hp⟩ | ⟨label, h, rfl⟩ | rfl)
    · exact ⟨_, .inl ⟨header, h, rfl⟩, rfl⟩
    · exact ⟨_, .inr (.inl ⟨file, h, packed, hp, rfl⟩), rfl⟩
    · exact ⟨_, .inr (.inr (.inl ⟨label, h, rfl⟩)), rfl⟩
    · exact ⟨_, .inr (.inr (.inr rfl)), rfl⟩

theorem Push.passesDown_header {header : Text × HeaderKind × ℤ}
    (h : header ∈ push.state.storedHeaders) : passesDown (push.files base) header.1 = false := by
  rw [passesDown, Push.files_lookup_header h]
  rfl

theorem Push.passesDown_stored (h : file ∈ push.state.stored) {description : BackupFileDescription}
    (hd : describe file.2.mTime ((push.bundle base).addToBundle file.1 file.2) = some description) :
    passesDown (push.files base) file.1 = (description.isSkipped || description.isIncremented) := by
  rw [passesDown, Push.files_lookup_stored h hd]

theorem Push.passesDown_none (h : name ∉ push.state.storedHeaders.map Prod.fst ++ push.state.stored.map Prod.fst) :
    passesDown (push.files base) name = false := by
  rw [passesDown, Push.files_lookup_none h]

end WalG.Backup
