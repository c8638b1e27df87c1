import WalG.Backup.Packer
import WalG.Restore.Fetch

/-! # Pushing a directory state

The bundle walks a directory and hands every object to the composer: a regular file is skipped,
packed as an increment or packed whole, everything else is a header.
-/
namespace WalG.Backup
open Foundation PageFile Restore

structure Bundle where
  directory : Text
  incrementFromLsn : Option ℕ
  incrementFromFiles : BackupFileList
  forceIncremental : Bool
  deltaMap : Option PagedFileDeltaMap

structure DiskFile where
  content : Bytes
  mTime : ℤ

/-- Go's zero time in seconds, the modification time of a missing description. -/
def zeroTime : ℤ := -62135596800

def excludedFilenames : List Text :=
  ["log", "pg_log", "pg_xlog", "pg_wal", "pgsql_tmp", "postgresql.auto.conf.tmp", "postmaster.pid",
    "postmaster.opts", "recovery.conf", "pg_dynshmem", "pg_notify", "pg_replslot", "pg_serial",
    "pg_stat_tmp", "pg_snapshots", "pg_subtrans"].map String.toList

def isExcluded (name : Text) : Bool := basePath name ∈ excludedFilenames

def Bundle.packer (bundle : Bundle) : TarBallFilePacker :=
  ⟨bundle.deltaMap, bundle.incrementFromLsn.getD 0⟩

def Bundle.baseFile (bundle : Bundle) (name : Text) : Option BackupFileDescription :=
  bundle.incrementFromFiles.lookup name

/-- The file is in the base with the same modification time. -/
def Bundle.isUnchanged (bundle : Bundle) (name : Text) (file : DiskFile) : Bool :=
  ((bundle.baseFile name).isSome || bundle.forceIncremental) &&
    file.mTime == ((bundle.baseFile name).map (·.mTime)).getD zeroTime

def Bundle.isIncremented (bundle : Bundle) (name : Text) (file : DiskFile) : Bool :=
  bundle.incrementFromLsn.isSome && ((bundle.baseFile name).isSome || bundle.forceIncremental) &&
    isPagedFile file.content.length (bundle.directory ++ name)

/-- What happens to a regular file that is not excluded; its content stays the
same between the walk and the packing. -/
def Bundle.addToBundle (bundle : Bundle) (name : Text) (file : DiskFile) : PackResult :=
  if bundle.isUnchanged name file then .skipped
  else
    packFileIntoTar bundle.packer (bundle.directory ++ name) (bundle.isIncremented name file)
      (some file.content) file.content.length

/-- The packer skips a changed file because the delta map does not know its
relation. -/
def Bundle.skipsWithoutBitmap (bundle : Bundle) (name : Text) (file : DiskFile) : Prop :=
  bundle.isUnchanged name file = false ∧ bundle.isIncremented name file = true ∧
    bundle.packer.getDeltaBitmapFor (bundle.directory ++ name) = .error .noBitmapFound

theorem startReadingFile_self (content : Bytes) :
    startReadingFile (some content) content.length = .ok ⟨false, content⟩ := by
  rw [startReadingFile, truncate_self]

theorem packFileIntoTar_cases (packer : TarBallFilePacker) (path : Text) (isIncremented : Bool)
    (content : Bytes) {result : PackResult}
    (h : packFileIntoTar packer path isIncremented (some content) content.length = result) :
    (result = .skipped ∧ isIncremented = true ∧ packer.getDeltaBitmapFor path = .error .noBitmapFound) ∨
      result = .packed ⟨false, content⟩ ∨
      (∃ data, result = .packed ⟨true, data⟩ ∧ isIncremented = true) ∨
      ∃ e, result = .failed e := by
  subst h
  unfold packFileIntoTar createFileReadCloser
  rw [startReadingFile_self]
  cases isIncremented with
  | false => exact .inr (.inl rfl)
  | true =>
    simp only [if_true]
    rcases packer.getDeltaBitmapFor path with e | bitmap
    · cases e with
      | noBitmapFound => exact .inl ⟨rfl, trivial, rfl⟩
      | _ => exact .inr (.inr (.inr ⟨_, rfl⟩))
    · dsimp only
      rcases IncrementalPageReader.start content content.length packer.incrementFromLsn bitmap
        with e | ⟨reader, size⟩
      · cases e with
        | invalidBlock _ => exact .inr (.inl rfl)
        | _ => exact .inr (.inr (.inr ⟨_, rfl⟩))
      · dsimp only
        by_cases hend : reader.stream.ending = .eof
        · rw [if_pos hend]
          exact .inr (.inr (.inl ⟨_, rfl, trivial⟩))
        · rw [if_neg hend]
          exact .inr (.inr (.inr ⟨_, rfl⟩))

theorem Bundle.addToBundle_cases (bundle : Bundle) (name : Text) (file : DiskFile) :
    (bundle.addToBundle name file = .skipped ∧
        (bundle.isUnchanged name file = true ∨ bundle.skipsWithoutBitmap name file)) ∨
      bundle.addToBundle name file = .packed ⟨false, file.content⟩ ∨
      (∃ data, bundle.addToBundle name file = .packed ⟨true, data⟩ ∧ bundle.isIncremented name file = true) ∨
      ∃ e, bundle.addToBundle name file = .failed e := by
  unfold Bundle.addToBundle
  by_cases hu : bundle.isUnchanged name file = true
  · exact .inl ⟨if_pos hu, .inl hu⟩
  · rw [if_neg hu]
    rcases packFileIntoTar_cases bundle.packer (bundle.directory ++ name)
      (bundle.isIncremented name file) file.content rfl with ⟨hr, hi, hb⟩ | hr | ⟨data, hr, hi⟩ | hr
    · exact .inl ⟨hr, .inr ⟨Bool.eq_false_iff.mpr hu, hi, hb⟩⟩
    · exact .inr (.inl hr)
    · exact .inr (.inr (.inl ⟨data, hr, hi⟩))
    · exact .inr (.inr (.inr hr))

theorem Bundle.isIncremented_lsn {bundle : Bundle} {name : Text} {file : DiskFile}
    (h : bundle.isIncremented name file = true) : bundle.incrementFromLsn.isSome = true := by
  rw [Bundle.isIncremented, Bool.and_assoc, Bool.and_eq_true] at h
  exact h.1

/-- Without the catchup switch only files of the base are skipped or incremented. -/
theorem Bundle.baseFile_isSome {bundle : Bundle} (hforce : bundle.forceIncremental = false)
    {name : Text} {file : DiskFile} (h : bundle.isUnchanged name file = true ∨ bundle.isIncremented name file = true) :
    (bundle.baseFile name).isSome = true := by
  simp only [Bundle.isUnchanged, Bundle.isIncremented, hforce, Bool.or_false, Bool.and_eq_true] at h
  rcases h with h | h
  · exact h.1
  · exact h.1.2

theorem Bundle.addToBundle_skipsWithoutBitmap {bundle : Bundle} {name : Text} {file : DiskFile}
    (h : bundle.skipsWithoutBitmap name file) : bundle.addToBundle name file = .skipped := by
  obtain ⟨hu, hi, hb⟩ := h
  simp only [Bundle.addToBundle, hu, packFileIntoTar, createFileReadCloser, hi, hb, if_true,
    Bool.false_eq_true, if_false]

end WalG.Backup
