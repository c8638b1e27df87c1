import WalG.PageFile.Fill
import WalG.PageFile.RelFile

/-! # Unwrapping one regular file of a tar

The interpreter writes one entry of a tar to its target file.
-/
namespace WalG.Restore
open Foundation PageFile List

structure BackupFileDescription where
  isIncremented : Bool
  isSkipped : Bool
  mTime : ℤ
  deriving DecidableEq, Repr

/-- The file list of a sentinel, a map from names. -/
abbrev BackupFileList := List (Text × BackupFileDescription)

/-- The sentinel's file list and its answer to `IsIncremental`, the selected
files (`none` selects all) and the catchup switch. -/
structure FileTarInterpreter where
  files : BackupFileList
  isIncremental : Bool
  filesToUnwrap : Option (List Text)
  createNewIncrementalFiles : Bool

inductive FileUnwrapResult where
  | completed
  | createdFromIncrement (missingBlockCount : ℤ)
  | wroteIncrementBlocks (restoredBlockCount : ℕ)
  | skipped
  deriving DecidableEq, Repr

structure BackupFileOptions where
  isIncremented : Bool
  isPageFile : Bool

/-- Copy the entry over an empty file; a failed copy removes the file. -/
def writeLocalFile (fileReader : Reader) : Option Bytes × Except FileError Unit :=
  if fileReader.ending = .eof then (some fileReader.data, .ok ())
  else (none, .error (.read fileReader.ending))

def completeLocalFile (fileReader : Reader) : Option Bytes × Except FileError FileUnwrapResult :=
  match writeLocalFile fileReader with
  | (file, .error e) => (file, .error e)
  | (file, .ok ()) => (file, .ok .completed)

def writeIncrement (reader : Reader) (file : Bytes) (overwriteExisting : Bool) :
    Option Bytes × Except FileError FileUnwrapResult :=
  match writePagesFromIncrement reader file overwriteExisting with
  | (file, .error e) => (some file, .error e)
  | (file, .ok restoredBlockCount) => (some file, .ok (.wroteIncrementBlocks restoredBlockCount))

/-- Both unwrappers create a new file alike. -/
def unwrapNewFile (options : BackupFileOptions) (reader : Reader) :
    Option Bytes × Except FileError FileUnwrapResult :=
  if options.isIncremented then
    match createFileFromIncrement reader [] with
    | (file, .error e) => (some file, .error e)
    | (file, .ok missingBlockCount) => (some file, .ok (.createdFromIncrement missingBlockCount))
  else completeLocalFile reader

/-- A backup's unwrapper keeps what a newer backup already restored. -/
def DefaultFileUnwrapper.unwrapExistingFile (options : BackupFileOptions) (reader : Reader)
    (file : Bytes) : Option Bytes × Except FileError FileUnwrapResult :=
  if options.isIncremented then writeIncrement reader file false
  else if options.isPageFile then
    match restoreMissingPages reader file with
    | (file, .error e) => (some file, .error e)
    | (file, .ok ()) => (some file, .ok .completed)
  else (some file, .ok .skipped)

/-- A catchup's unwrapper overwrites the local file. -/
def CatchupFileUnwrapper.unwrapExistingFile (options : BackupFileOptions) (reader : Reader)
    (file : Bytes) : Option Bytes × Except FileError FileUnwrapResult :=
  if options.isIncremented then writeIncrement reader file true else completeLocalFile reader

/-- Whether the entry is among the selected files. -/
def FileTarInterpreter.selects (interpreter : FileTarInterpreter) (name : Text) : Bool :=
  match interpreter.filesToUnwrap with
  | none => true
  | some names => name ∈ names

def FileTarInterpreter.isIncremented (interpreter : FileTarInterpreter) (name : Text) : Bool :=
  match interpreter.files.lookup name with
  | none => false
  | some description => description.isIncremented

/-- Plain unwrapping; an increment needs an incremental sentinel. -/
def unwrapRegularFileOld (interpreter : FileTarInterpreter) (fileReader : Reader) (name : Text)
    (file : Option Bytes) : Option Bytes × Except FileError Unit :=
  if !interpreter.selects name then (file, .ok ())
  else if interpreter.isIncremental && interpreter.isIncremented name then
    applyFileIncrement file fileReader interpreter.createNewIncrementalFiles
  else writeLocalFile fileReader

/-- Reverse unwrapping; an entry that is not selected has no result. -/
def unwrapRegularFileNew (interpreter : FileTarInterpreter) (fileReader : Reader)
    (name targetPath : Text) (file : Option Bytes) :
    Option Bytes × Except FileError (Option FileUnwrapResult) :=
  if !interpreter.selects name then (file, .ok none)
  else
    let isPageFile := match file with
      | none => false
      | some content => isPagedFile content.length targetPath
    let options := ⟨interpreter.isIncremented name, isPageFile⟩
    let (file, result) := match file with
      | none => unwrapNewFile options fileReader
      | some content =>
        if interpreter.createNewIncrementalFiles then
          CatchupFileUnwrapper.unwrapExistingFile options fileReader content
        else DefaultFileUnwrapper.unwrapExistingFile options fileReader content
    (file, result.map some)

theorem fill_eq_apply_iff (inc : Increment) (pages : List Page) :
    inc.fill true pages = inc.apply pages ↔ inc.pageCount = pages.length := by
  constructor
  · intro h
    have := congrArg length h
    rwa [Increment.fill_length, Increment.apply_length, eq_comm] at this
  · intro h
    apply ext_getElem?
    intro b
    rw [Increment.fill_getElem?]
    by_cases hb : b < inc.pageCount
    · rw [inc.apply_getElem? pages hb, getElem?_eq_getElem (h ▸ hb)]
      rfl
    · rw [inc.apply_getElem?_ge pages (Nat.not_lt.mp hb), getElem?_eq_none (h ▸ Nat.not_lt.mp hb)]
      rfl

theorem catchup_existing_encode (inc : Increment) (hf : inc.Fits) (pages : List Page) (isPageFile : Bool) :
    CatchupFileUnwrapper.unwrapExistingFile ⟨true, isPageFile⟩ (.ofBytes inc.encode)
        (joinBlocks pages) =
      (some (joinBlocks (inc.fill true pages)), .ok (.wroteIncrementBlocks (inc.fillCount true pages))) := by
  have hfill := writePagesFromIncrement_encode inc hf pages .eof true
  simp only [CatchupFileUnwrapper.unwrapExistingFile, writeIncrement, Reader.ofBytes, hfill, if_true]

/-- Catchup over an existing file agrees with applying the increment exactly
when the source file kept the local file's page count. -/
theorem catchup_agrees_applyFileIncrement_iff (inc : Increment) (pages : List Page) (isPageFile createNew : Bool) :
    (∃ content result, CatchupFileUnwrapper.unwrapExistingFile ⟨true, isPageFile⟩ (.ofBytes inc.encode)
            (joinBlocks pages) = (some content, .ok result) ∧
          applyFileIncrement (some (joinBlocks pages)) (.ofBytes inc.encode) createNew = (some content, .ok ())) ↔
      inc.Fits ∧ inc.pageCount = pages.length := by
  by_cases hf : inc.Fits
  · have happly := applyFileIncrement_encode inc hf pages .eof createNew
    rw [catchup_existing_encode inc hf, Reader.ofBytes, happly, ← fill_eq_apply_iff]
    constructor
    · rintro ⟨content, result, hc, ha⟩
      have hbytes := Option.some.inj ((Prod.mk.inj hc).1.trans (Prod.mk.inj ha).1.symm)
      exact ⟨hf, joinBlocks_injective (by decide) hbytes⟩
    · rintro ⟨-, heq⟩
      exact ⟨_, _, rfl, by rw [heq]⟩
  · obtain ⟨err, he⟩ := applyFileIncrement_not_fits inc hf (some (joinBlocks pages)) .eof createNew
    constructor
    · rintro ⟨content, result, -, ha⟩
      rw [Reader.ofBytes] at ha
      rw [ha] at he
      cases he
    · rintro ⟨h, -⟩
      exact absurd h hf

/-- One page was appended to a one-page file since the local copy was made. -/
def grownByOnePage : Increment :=
  .single 2 1 emptyPage Nat.one_lt_two Increment.two_pages_lt

/-- The appended page never reaches the local file. -/
theorem catchup_drops_appended_page : ¬ ∃ content result,
      CatchupFileUnwrapper.unwrapExistingFile ⟨true, true⟩ (.ofBytes grownByOnePage.encode)
          (joinBlocks [emptyPage]) = (some content, .ok result) ∧
        applyFileIncrement (some (joinBlocks [emptyPage])) (.ofBytes grownByOnePage.encode) true =
          (some content, .ok ()) := by
  have hf : grownByOnePage.Fits := by decide
  have happly := applyFileIncrement_encode grownByOnePage hf [emptyPage] .eof true
  rw [catchup_existing_encode _ hf, Reader.ofBytes, happly]
  rintro ⟨content, result, hc, ha⟩
  have hbytes := Option.some.inj ((Prod.mk.inj hc).1.trans (Prod.mk.inj ha).1.symm)
  have hcount := (fill_eq_apply_iff _ _).mp (joinBlocks_injective (by decide) hbytes)
  exact absurd hcount (by decide)

end WalG.Restore
