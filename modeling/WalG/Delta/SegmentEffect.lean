import WalG.Delta.Groups
import WalG.Delta.RecordingReader

/-! # What recording a segment does to the files of a group

The recorder of a segment appends locations to the delta file of its group and sets a tail and a
head in the part file.
-/
namespace WalG.Delta
open Foundation PageFile Backup XLog Wal List

namespace DeltaFileManager

variable {w : WalSize} {m m' m'' : DeltaFileManager} {name name' : Text}

/-- The part file under a name as the next access finds it. -/
def partFile (m : DeltaFileManager) (name : Text) : Except LoadError WalPartFile :=
  match m.partFiles.get name with
  | some partFile => .ok partFile
  | none => m.loadPartFile name

/-- The delta file under a name as the next access finds it. -/
def deltaFile (m : DeltaFileManager) (name : Text) : Except LoadError DeltaFile :=
  match m.deltaFileWriters.get name with
  | some deltaFile => .ok deltaFile
  | none => m.loadDeltaFileWriter name

/-- The files under a name are the same, and so is the folder. -/
structure SameAt (name : Text) (m m' : DeltaFileManager) : Prop where
  dataFolder : m'.dataFolder = m.dataFolder
  partFiles : m'.partFiles.get name = m.partFiles.get name
  deltaFileWriters : m'.deltaFileWriters.get name = m.deltaFileWriters.get name

theorem SameAt.refl (name : Text) (m : DeltaFileManager) : SameAt name m m := ⟨rfl, rfl, rfl⟩

theorem SameAt.trans (h : SameAt name m m') (h' : SameAt name m' m'') : SameAt name m m'' :=
  ⟨h'.dataFolder.trans h.dataFolder, h'.partFiles.trans h.partFiles, h'.deltaFileWriters.trans h.deltaFileWriters⟩

theorem partFile_congr (hfolder : m'.dataFolder = m.dataFolder) (hget : m'.partFiles.get name = m.partFiles.get name) :
    m'.partFile name = m.partFile name := by
  rw [partFile, partFile, hget, loadPartFile, loadPartFile, hfolder]

theorem deltaFile_congr (hfolder : m'.dataFolder = m.dataFolder)
    (hget : m'.deltaFileWriters.get name = m.deltaFileWriters.get name) : m'.deltaFile name = m.deltaFile name := by
  rw [deltaFile, deltaFile, hget, loadDeltaFileWriter, loadDeltaFileWriter, hfolder]

theorem partFile_of_get {p : WalPartFile} (h : m.partFiles.get name = some p) : m.partFile name = .ok p := by
  rw [partFile, h]

theorem deltaFile_of_get {d : DeltaFile} (h : m.deltaFileWriters.get name = some d) : m.deltaFile name = .ok d := by
  rw [deltaFile, h]

section Updates

/-- One part file is set, and nothing else changes. -/
structure SetsPartFile (name : Text) (p : WalPartFile) (m m' : DeltaFileManager) : Prop where
  get_self : m'.partFiles.get name = some p
  get_other : ∀ name', name' ≠ name → m'.partFiles.get name' = m.partFiles.get name'
  dataFolder : m'.dataFolder = m.dataFolder
  deltaFileWriters : m'.deltaFileWriters = m.deltaFileWriters
  canceledDeltaFiles : m'.canceledDeltaFiles = m.canceledDeltaFiles

theorem SetsPartFile.sameAt {p : WalPartFile} (h : SetsPartFile name p m m') (hne : name' ≠ name) : SameAt name' m m' :=
  ⟨h.dataFolder, h.get_other name' hne, by rw [h.deltaFileWriters]⟩

theorem updatePartFile_ok {update : WalPartFile → WalPartFile} (h : m.updatePartFile name update = .ok m') :
    ∃ p, m.partFile name = .ok p ∧ SetsPartFile name (update p) m m' := by
  rw [updatePartFile] at h
  split at h
  · cases h
  · rename_i p partFiles hload
    obtain ⟨-, hother, hview⟩ := m.partFiles.load_ok hload
    rw [← Except.ok.inj h]
    refine ⟨p, ?_, Table.get_set_self _, fun name' hne => ?_, rfl, rfl, rfl⟩
    · rw [partFile]
      rcases hview with hget | ⟨hget, hloader⟩
      · rw [hget]
      · rw [hget]
        exact hloader
    · exact (Table.get_set_of_ne _ hne).trans (hother name' hne)

theorem exists_updatePartFile {p : WalPartFile} (h : m.partFile name = .ok p) (update : WalPartFile → WalPartFile) :
    ∃ m', m.updatePartFile name update = .ok m' := by
  rw [partFile] at h
  rw [updatePartFile, Table.load]
  split at h
  · rename_i p' hget
    rw [hget]
    exact ⟨_, rfl⟩
  · rename_i hget
    rw [hget, h]
    exact ⟨_, rfl⟩

theorem updatePartFile_of_view {p : WalPartFile} (h : m.partFile name = .ok p) (update : WalPartFile → WalPartFile) :
    ∃ m', m.updatePartFile name update = .ok m' ∧ SetsPartFile name (update p) m m' := by
  obtain ⟨m', hupdate⟩ := exists_updatePartFile h update
  obtain ⟨p', hp', hsets⟩ := updatePartFile_ok hupdate
  rw [h] at hp'
  rw [Except.ok.inj hp']
  exact ⟨m', hupdate, hsets⟩

theorem getBlockLocationConsumer_ok (h : m.getBlockLocationConsumer name = .ok m') :
    ∃ d, m.deltaFile name = .ok d ∧ m'.deltaFileWriters.get name = some d ∧
      (∀ name', name' ≠ name → m'.deltaFileWriters.get name' = m.deltaFileWriters.get name') ∧
      m'.partFiles = m.partFiles ∧ m'.dataFolder = m.dataFolder ∧ m'.canceledDeltaFiles = m.canceledDeltaFiles := by
  rw [getBlockLocationConsumer] at h
  split at h
  · cases h
  · rename_i d deltaFileWriters hload
    obtain ⟨hself, hother, hview⟩ := m.deltaFileWriters.load_ok hload
    rw [← Except.ok.inj h]
    refine ⟨d, ?_, hself, hother, rfl, rfl, rfl⟩
    rw [deltaFile]
    rcases hview with hget | ⟨hget, hloader⟩
    · rw [hget]
    · rw [hget]
      exact hloader

theorem exists_getBlockLocationConsumer {d : DeltaFile} (h : m.deltaFile name = .ok d) :
    ∃ m', m.getBlockLocationConsumer name = .ok m' := by
  rw [deltaFile] at h
  rw [getBlockLocationConsumer, Table.load]
  split at h
  · rename_i d' hget
    rw [hget]
    exact ⟨_, rfl⟩
  · rename_i hget
    rw [hget, h]
    exact ⟨_, rfl⟩

end Updates

section Consuming

/-- Locations are appended to one delta file, if it is loaded, and nothing else changes. -/
structure AppendsLocations (name : Text) (locations : List BlockLocation) (m m' : DeltaFileManager) : Prop where
  get_self : m'.deltaFileWriters.get name =
    (m.deltaFileWriters.get name).map fun d => { d with locations := d.locations ++ locations }
  get_other : ∀ name', name' ≠ name → m'.deltaFileWriters.get name' = m.deltaFileWriters.get name'
  dataFolder : m'.dataFolder = m.dataFolder
  partFiles : m'.partFiles = m.partFiles
  canceledDeltaFiles : m'.canceledDeltaFiles = m.canceledDeltaFiles

theorem consumeLocation_appends (m : DeltaFileManager) (name : Text) (location : BlockLocation) :
    AppendsLocations name [location] m (m.consumeLocation name location) := by
  rw [consumeLocation]
  cases hget : m.deltaFileWriters.get name with
  | none => exact ⟨by rw [hget]; rfl, fun _ _ => rfl, rfl, rfl, rfl⟩
  | some d =>
    refine ⟨?_, fun name' hne => Table.get_set_of_ne _ hne, rfl, rfl, rfl⟩
    rw [hget]
    exact Table.get_set_self _

theorem AppendsLocations.trans {locations locations' : List BlockLocation} (h : AppendsLocations name locations m m')
    (h' : AppendsLocations name locations' m' m'') : AppendsLocations name (locations ++ locations') m m'' where
  get_self := by
    rw [h'.get_self, h.get_self, Option.map_map]
    congr 1
    funext d
    simp
  get_other name' hne := (h'.get_other name' hne).trans (h.get_other name' hne)
  dataFolder := h'.dataFolder.trans h.dataFolder
  partFiles := h'.partFiles.trans h.partFiles
  canceledDeltaFiles := h'.canceledDeltaFiles.trans h.canceledDeltaFiles

theorem consume_appends (m : DeltaFileManager) (name : Text) (locations : List BlockLocation) :
    AppendsLocations name locations m (m.consume name locations) := by
  induction locations generalizing m with
  | nil => exact ⟨by simp [consume], fun _ _ => rfl, rfl, rfl, rfl⟩
  | cons location locations ih => exact (consumeLocation_appends m name location).trans (ih _)

theorem consume_append (m : DeltaFileManager) (name : Text) (locations locations' : List BlockLocation) :
    m.consume name (locations ++ locations') = (m.consume name locations).consume name locations' :=
  foldl_append

theorem AppendsLocations.sameAt {locations : List BlockLocation} (h : AppendsLocations name locations m m')
    (hne : name' ≠ name) : SameAt name' m m' :=
  ⟨h.dataFolder, by rw [h.partFiles], h.get_other name' hne⟩

end Consuming

/-- The tail of a segment, if it has one. -/
def saveTail (w : WalSize) (m : DeltaFileManager) (walFilename : Text) :
    Option Bytes → Except RecordError DeltaFileManager
  | none => .ok m
  | some tailData => m.savePreviousWalTail w walFilename tailData

end DeltaFileManager

open DeltaFileManager

namespace SegmentRecorder

variable (w : WalSize)

/-- What is recorded of the output of a page; an error only stops the recording. -/
def recordParsed (state : SegmentRecorder × DeltaFileManager) (output : PageRecords) :
    SegmentRecorder × DeltaFileManager :=
  match state.1.recordOutput w state.2 output with
  | (none, recorder, m) => (recorder, m)
  | (some _, recorder, m) => (recorder, m.cancelRecording w recorder.walFilename)

variable {w} {parser parser' : WalParser} {name : Text} {outputs : List PageRecords}

theorem recordParsed_withParser (recorder : SegmentRecorder) (m : DeltaFileManager) (output : PageRecords) :
    recordParsed w ({ recorder with walParser := parser }, m) output =
      ({ (recordParsed w (recorder, m) output).1 with walParser := parser },
        (recordParsed w (recorder, m) output).2) := by
  unfold recordParsed recordOutput recordWalDelta
  split_ifs
  · dsimp only
    cases m.savePreviousWalTail w recorder.walFilename output.prevRecordTail <;> rfl
  · rfl
  · rfl
  · rfl

theorem foldl_recordParsed_withParser (recorder : SegmentRecorder) (m : DeltaFileManager) :
    outputs.foldl (recordParsed w) ({ recorder with walParser := parser }, m) =
      ({ (outputs.foldl (recordParsed w) (recorder, m)).1 with walParser := parser },
        (outputs.foldl (recordParsed w) (recorder, m)).2) := by
  induction outputs generalizing recorder m with
  | nil => rfl
  | cons output outputs ih =>
    rw [foldl_cons, recordParsed_withParser, ih]
    rfl

/-- The pages of a segment that can be parsed are recorded output by output. -/
theorem recordPages_of_parsePages {recorder : SegmentRecorder} {pages : List Bytes}
    (h : recorder.walParser.parsePages pages = (.ok outputs, parser')) (m : DeltaFileManager) :
    recorder.recordPages w m pages =
      ({ (outputs.foldl (recordParsed w) (recorder, m)).1 with walParser := parser' },
        (outputs.foldl (recordParsed w) (recorder, m)).2) := by
  induction pages generalizing recorder outputs m with
  | nil =>
    obtain ⟨houtputs, rfl⟩ := Prod.mk.inj h
    rw [← Except.ok.inj houtputs]
    rfl
  | cons page pages ih =>
    rw [show recorder.recordPages w m (page :: pages) =
      (recorder.recordPage w m page).1.recordPages w (recorder.recordPage w m page).2 pages from rfl]
    rw [WalParser.parsePages] at h
    split at h
    · rename_i parser₁ hparse
      have hpage : recorder.recordPage w m page = ({ recorder with walParser := parser₁ }, m) := by
        rw [recordPage, recordBlockLocationsFromPage, hparse]
      rw [hpage, ih h, foldl_recordParsed_withParser]
    · cases h
    · rename_i output parser₁ hparse
      split at h
      · cases h
      · rename_i later parser₂ hlater
        obtain ⟨houtputs, rfl⟩ := Prod.mk.inj h
        rw [← Except.ok.inj houtputs, foldl_cons]
        have hpage : recorder.recordPage w m page =
            recordParsed w ({ recorder with walParser := parser₁ }, m) output := by
          rw [recordPage, recordBlockLocationsFromPage, hparse]
          rfl
        rw [hpage, recordParsed_withParser, ih hlater, foldl_recordParsed_withParser]

theorem extractBlockLocations_append (records records' : List XLogRecord) :
    extractBlockLocations (records ++ records') = extractBlockLocations records ++ extractBlockLocations records' :=
  flatMap_append

theorem foldl_recordParsed_noTail (htails : ∀ output ∈ outputs, output.prevRecordTail = []) (m : DeltaFileManager) :
    outputs.foldl (recordParsed w) (⟨parser, name, false⟩, m) = (⟨parser, name, false⟩,
      m.consume ((getDeltaFilenameFor w name).getD [])
        (extractBlockLocations (outputs.flatMap PageRecords.records))) := by
  induction outputs generalizing m with
  | nil => rfl
  | cons output outputs ih =>
    obtain ⟨htail, htails⟩ := forall_mem_cons.mp htails
    have houtput : recordParsed w (⟨parser, name, false⟩, m) output = (⟨parser, name, false⟩,
        m.consume ((getDeltaFilenameFor w name).getD []) (extractBlockLocations output.records)) := by
      by_cases hrecords : output.records = [] <;>
        simp [recordParsed, recordOutput, recordWalDelta, htail, hrecords]
    rw [foldl_cons, houtput, ih htails, flatMap_cons, extractBlockLocations_append, consume_append]

/-- The tail of a segment, if it has one, is saved, and the locations of its records are appended. -/
theorem foldl_recordParsed_yields {tail : Option Bytes} {records : List XLogRecord} (h : Yields outputs tail records)
    {m m' : DeltaFileManager} (hsave : m.saveTail w name tail = .ok m') :
    outputs.foldl (recordParsed w) (⟨parser, name, true⟩, m) = (⟨parser, name, tail.isNone⟩,
      m'.consume ((getDeltaFilenameFor w name).getD []) (extractBlockLocations records)) := by
  induction h with
  | nil =>
    rw [← Except.ok.inj hsave]
    rfl
  | quiet htail hrecords _ ih =>
    rw [foldl_cons, ← ih hsave]
    congr 1
    simp [recordParsed, recordOutput, recordWalDelta, htail, hrecords, extractBlockLocations, consume]
  | @first output outputs hoverall htails =>
    have hfirst : recordParsed w (⟨parser, name, true⟩, m) output = (⟨parser, name, false⟩,
        m'.consume ((getDeltaFilenameFor w name).getD []) (extractBlockLocations output.records)) := by
      simp only [saveTail] at hsave
      simp only [recordParsed, recordOutput, recordWalDelta, if_pos hoverall, hsave, if_true]
    rw [foldl_cons, hfirst, foldl_recordParsed_noTail htails, extractBlockLocations_append, consume_append]
    rfl

variable {s : WalSegment w} {name' : Text}

theorem recordOutput_walFilename (recorder : SegmentRecorder) (m : DeltaFileManager) (output : PageRecords) :
    (recorder.recordOutput w m output).2.1.walFilename = recorder.walFilename := by
  unfold recordOutput
  split_ifs
  · dsimp only
    cases m.savePreviousWalTail w recorder.walFilename output.prevRecordTail <;> rfl
  · rfl
  · rfl
  · rfl

theorem recordParsed_walFilename (state : SegmentRecorder × DeltaFileManager) (output : PageRecords) :
    (recordParsed w state output).1.walFilename = state.1.walFilename := by
  have h := recordOutput_walFilename (w := w) state.1 state.2 output
  rw [recordParsed]
  split <;> rename_i heq <;> rwa [heq] at h

theorem foldl_recordParsed_walFilename (state : SegmentRecorder × DeltaFileManager) :
    (outputs.foldl (recordParsed w) state).1.walFilename = state.1.walFilename := by
  induction outputs generalizing state with
  | nil => rfl
  | cons output outputs ih => rw [foldl_cons, ih, recordParsed_walFilename]

theorem recordOutput_sameAt {recorder : SegmentRecorder} (hfile : recorder.walFilename = s.filename)
    (hne : name' ≠ (group s).name) (m : DeltaFileManager) (output : PageRecords) :
    SameAt name' m (recorder.recordOutput w m output).2.2 := by
  have hconsume (m : DeltaFileManager) : SameAt name' m (recorder.recordWalDelta w m output.records) := by
    rw [recordWalDelta, hfile, getDeltaFilenameFor_filename]
    exact (consume_appends _ _ _).sameAt hne
  unfold recordOutput
  split_ifs
  · dsimp only
    split
    · exact .refl _ _
    · rename_i m' hsave
      rw [savePreviousWalTail, hfile, getDeltaFilenameFor_filename] at hsave
      obtain ⟨p, -, hsets⟩ := updatePartFile_ok hsave
      exact (hsets.sameAt hne).trans (hconsume m')
  · exact .refl _ _
  · exact hconsume m
  · exact hconsume m

theorem cancelRecording_sameAt (m : DeltaFileManager) (name : Text) : SameAt name' m (m.cancelRecording w name) := by
  rw [cancelRecording]
  split
  · exact .refl _ _
  · exact ⟨rfl, rfl, rfl⟩

/-- With or without errors, the files of other groups are not touched. -/
theorem foldl_recordParsed_sameAt {recorder : SegmentRecorder} (hfile : recorder.walFilename = s.filename)
    (hne : name' ≠ (group s).name) (m : DeltaFileManager) :
    SameAt name' m (outputs.foldl (recordParsed w) (recorder, m)).2 := by
  induction outputs generalizing recorder m with
  | nil => exact .refl _ _
  | cons output outputs ih =>
    have hsame := recordOutput_sameAt hfile hne m output
    have hstep : SameAt name' m (recordParsed w (recorder, m) output).2 := by
      rw [recordParsed]
      split
      · rename_i heq
        rwa [heq] at hsame
      · rename_i heq
        rw [heq] at hsame
        exact hsame.trans (cancelRecording_sameAt _ _)
    exact hstep.trans (ih ((recordParsed_walFilename (recorder, m) output).trans hfile) _)

end SegmentRecorder

end WalG.Delta
