import WalG.Delta.Manager
import WalG.Foundation.PieceReader
import WalG.XLog.SegmentStream

/-! # The reader that records a segment while it is uploaded

The bytes of the segment pass through the reader, and every page that is read is also parsed.
-/
namespace WalG.Delta
open Foundation PageFile Backup XLog Wal List

/-- The part of the reader that records. -/
structure SegmentRecorder where
  walParser : WalParser
  walFilename : Text
  canParsePreviousRecordTail : Bool

structure WalDeltaRecordingReader extends SegmentRecorder where
  walFileReader : PieceReader
  pageDataLeftover : Bytes

def newWalDeltaRecordingReader (w : WalSize) (walFileReader : PieceReader) (walFilename : Text) (m : DeltaFileManager) :
    Except RecordError (WalDeltaRecordingReader × DeltaFileManager) :=
  match getDeltaFilenameFor w walFilename with
  | none => .error .notWalFilename
  | some deltaFilename =>
    match m.getBlockLocationConsumer deltaFilename with
    | .error e => .error e
    | .ok m => .ok (⟨⟨newWalParser, walFilename, true⟩, walFileReader, []⟩, m)

/-- One page, or the end of the file together with the page as it was allocated. -/
def readPageData (pageSize : ℕ) (walFileReader : PieceReader) : Bytes × Option ReadError × PieceReader :=
  match walFileReader.readFull pageSize with
  | (_, some .eof, walFileReader) => (zeros pageSize, some .eof, walFileReader)
  | (_, some e, walFileReader) => ([], some e, walFileReader)
  | (page, none, walFileReader) => (page, none, walFileReader)

section Pages

variable {pageSize : ℕ} {r r' : PieceReader}

theorem readPageData_of_le (h : pageSize ≤ r.content.length) :
    ∃ r', readPageData pageSize r = (r.content.take pageSize, none, r') ∧ r'.content = r.content.drop pageSize := by
  obtain ⟨r', hread, hrest⟩ := PieceReader.readFull_of_le h
  exact ⟨r', by rw [readPageData, hread], hrest⟩

theorem readPageData_of_lt (h : r.content.length < pageSize) :
    ∃ page e r', readPageData pageSize r = (page, some e, r') ∧ (r.content = [] → e = .eof) ∧ r'.content = [] := by
  obtain ⟨r', hread, hrest⟩ := PieceReader.readFull_of_lt h
  by_cases hnil : r.content = []
  · rw [if_pos hnil] at hread
    exact ⟨_, _, r', by rw [readPageData, hread], fun _ => rfl, hrest⟩
  · rw [if_neg hnil] at hread
    exact ⟨_, _, r', by rw [readPageData, hread], fun h => absurd h hnil, hrest⟩

theorem readPageData_content {page : Bytes} (h : readPageData pageSize r = (page, none, r')) :
    page.length = pageSize ∧ r.content = page ++ r'.content := by
  rcases le_or_gt pageSize r.content.length with hle | hlt
  · obtain ⟨r₁, hread, hrest⟩ := readPageData_of_le hle
    rw [hread] at h
    obtain ⟨rfl, -, rfl⟩ := h
    rw [hrest, take_append_drop]
    exact ⟨by rw [length_take, min_eq_left hle], rfl⟩
  · obtain ⟨_, e, _, hread, -⟩ := readPageData_of_lt hlt
    cases hread.symm.trans h

end Pages

namespace SegmentRecorder

variable (w : WalSize) (recorder : SegmentRecorder) (m : DeltaFileManager)

def recordWalDelta (records : List XLogRecord) : DeltaFileManager :=
  m.consume ((getDeltaFilenameFor w recorder.walFilename).getD []) (extractBlockLocations records)

/-- What is recorded of a page that was parsed. The first page with a tail or records tells what was left of the
record that crosses into the segment; a tail on a later page is an error. -/
def recordOutput (output : PageRecords) : Option RecordError × SegmentRecorder × DeltaFileManager :=
  if output.prevRecordTail ≠ [] ∨ output.records ≠ [] then
    if recorder.canParsePreviousRecordTail then
      let recorder := { recorder with canParsePreviousRecordTail := false }
      match m.savePreviousWalTail w recorder.walFilename output.prevRecordTail with
      | .error e => (some e, recorder, m)
      | .ok m => (none, recorder, recorder.recordWalDelta w m output.records)
    else if output.prevRecordTail ≠ [] then (some .cantDiscardWalData, recorder, m)
    else (none, recorder, recorder.recordWalDelta w m output.records)
  else (none, recorder, recorder.recordWalDelta w m output.records)

/-- A zero page is passed over, and so is the error of a partial page; any other error makes the parser useless. -/
def recordBlockLocationsFromPage (page : Bytes) : Option RecordError × SegmentRecorder × DeltaFileManager :=
  match recorder.walParser.parseRecordsFromPage page with
  | (.error .zeroPage, parser) => (none, { recorder with walParser := parser }, m)
  | (.error e, _) => (some (.parse e), { recorder with walParser := .invalidate }, m)
  | (.ok output, parser) => { recorder with walParser := parser }.recordOutput w m output

/-- An error only stops the recording. -/
def recordPage (page : Bytes) : SegmentRecorder × DeltaFileManager :=
  match recorder.recordBlockLocationsFromPage w m page with
  | (none, recorder, m) => (recorder, m)
  | (some _, recorder, m) => (recorder, m.cancelRecording w recorder.walFilename)

def recordPages (pages : List Bytes) : SegmentRecorder × DeltaFileManager :=
  pages.foldl (fun state page => state.1.recordPage w state.2 page) (recorder, m)

def close : Option RecordError × DeltaFileManager :=
  m.saveNextWalHead w recorder.walFilename recorder.walParser.currentRecordData

end SegmentRecorder

namespace WalDeltaRecordingReader

variable (w : WalSize) (reader : WalDeltaRecordingReader) (m : DeltaFileManager)

/-- Pages are read and recorded until there are `k` bytes. -/
def readLoop {pageSize : ℕ} (hpos : 0 < pageSize) (reader : WalDeltaRecordingReader) (m : DeltaFileManager) (k : ℕ) :
    Bytes × Option ReadError × WalDeltaRecordingReader × DeltaFileManager :=
  if k ≤ reader.pageDataLeftover.length then
    (reader.pageDataLeftover.take k, none, { reader with pageDataLeftover := reader.pageDataLeftover.drop k }, m)
  else
    match _hread : readPageData pageSize reader.walFileReader with
    | (page, some e, walFileReader) =>
      (reader.pageDataLeftover, some e, { reader with walFileReader := walFileReader, pageDataLeftover := page },
        if e = .eof then m else m.cancelRecording w reader.walFilename)
    | (page, none, walFileReader) =>
      let recorded := reader.toSegmentRecorder.recordPage w m page
      let rest := readLoop hpos ⟨recorded.1, walFileReader, page⟩ recorded.2 (k - reader.pageDataLeftover.length)
      (reader.pageDataLeftover ++ rest.1, rest.2)
termination_by reader.walFileReader.content.length
decreasing_by
  obtain ⟨hpage, hcontent⟩ := readPageData_content _hread
  rw [hcontent, length_append, hpage]
  exact Nat.lt_add_of_pos_left hpos

theorem walPageSize_pos : 0 < walPageSize := by decide

/-- One call of `Read` with a buffer of `k` bytes. -/
def read (k : ℕ) : Bytes × Option ReadError × WalDeltaRecordingReader × DeltaFileManager :=
  reader.readLoop w walPageSize_pos m k

/-- Calls up to the one that reports the end of the file. -/
inductive ReadsToEnd :
    WalDeltaRecordingReader → DeltaFileManager → WalDeltaRecordingReader → DeltaFileManager → Prop where
  | last {reader m k bytes reader' m'} (h : reader.read w m k = (bytes, some .eof, reader', m')) :
      ReadsToEnd reader m reader' m'
  | step {reader m k bytes reader₁ m₁ reader' m'} (h : reader.read w m k = (bytes, none, reader₁, m₁))
      (hrest : ReadsToEnd reader₁ m₁ reader' m') : ReadsToEnd reader m reader' m'

variable {w reader m}

theorem readLoop_of_le {k : ℕ} (h : k ≤ reader.pageDataLeftover.length) :
    reader.readLoop w walPageSize_pos m k = (reader.pageDataLeftover.take k, none,
      { reader with pageDataLeftover := reader.pageDataLeftover.drop k }, m) := by
  rw [readLoop, if_pos h]

theorem readLoop_of_error {k : ℕ} (h : ¬ k ≤ reader.pageDataLeftover.length) {page : Bytes} {e : ReadError}
    {walFileReader : PieceReader}
    (hread : readPageData walPageSize reader.walFileReader = (page, some e, walFileReader)) :
    reader.readLoop w walPageSize_pos m k = (reader.pageDataLeftover, some e,
      { reader with walFileReader := walFileReader, pageDataLeftover := page },
      if e = .eof then m else m.cancelRecording w reader.walFilename) := by
  rw [readLoop, if_neg h]
  split
  · rename_i heq
    rw [hread] at heq
    obtain ⟨rfl, rfl, rfl⟩ := heq
    rfl
  · rename_i heq
    cases hread.symm.trans heq

theorem readLoop_of_page {k : ℕ} (h : ¬ k ≤ reader.pageDataLeftover.length) {page : Bytes}
    {walFileReader : PieceReader}
    (hread : readPageData walPageSize reader.walFileReader = (page, none, walFileReader)) :
    reader.readLoop w walPageSize_pos m k =
      (reader.pageDataLeftover ++ (readLoop w walPageSize_pos
          ⟨(reader.toSegmentRecorder.recordPage w m page).1, walFileReader, page⟩
          (reader.toSegmentRecorder.recordPage w m page).2 (k - reader.pageDataLeftover.length)).1,
        (readLoop w walPageSize_pos ⟨(reader.toSegmentRecorder.recordPage w m page).1, walFileReader, page⟩
          (reader.toSegmentRecorder.recordPage w m page).2 (k - reader.pageDataLeftover.length)).2) := by
  rw [readLoop, if_neg h]
  split
  · rename_i heq
    cases hread.symm.trans heq
  · rename_i heq
    rw [hread] at heq
    obtain ⟨rfl, -, rfl⟩ := heq
    rfl

/-- The pages that are still in the file are recorded one by one, whenever the calls come to them. -/
theorem readLoop_recordPages {k : ℕ} {pages : List Bytes} (hcontent : reader.walFileReader.content = pages.flatten)
    (hpages : ∀ page ∈ pages, page.length = walPageSize) {bytes : Bytes} {err : Option ReadError}
    {reader' : WalDeltaRecordingReader} {m' : DeltaFileManager}
    (h : reader.readLoop w walPageSize_pos m k = (bytes, err, reader', m')) :
    ∃ rest, reader'.walFileReader.content = rest.flatten ∧ (∀ page ∈ rest, page.length = walPageSize) ∧
      reader'.toSegmentRecorder.recordPages w m' rest = reader.toSegmentRecorder.recordPages w m pages ∧
      (err = some .eof → rest = []) := by
  induction pages generalizing reader m k bytes with
  | nil =>
    by_cases hle : k ≤ reader.pageDataLeftover.length
    · rw [readLoop_of_le hle] at h
      obtain ⟨-, rfl, rfl, rfl⟩ := h
      exact ⟨[], hcontent, hpages, rfl, fun _ => rfl⟩
    · obtain ⟨page, e, walFileReader, hread, heof, hnil⟩ := readPageData_of_lt
        (show reader.walFileReader.content.length < walPageSize by rw [hcontent]; exact walPageSize_pos)
      rw [readLoop_of_error hle hread, heof hcontent, if_pos rfl] at h
      obtain ⟨-, rfl, rfl, rfl⟩ := h
      exact ⟨[], hnil, by simp, rfl, fun _ => rfl⟩
  | cons page pages ih =>
    by_cases hle : k ≤ reader.pageDataLeftover.length
    · rw [readLoop_of_le hle] at h
      obtain ⟨-, rfl, rfl, rfl⟩ := h
      exact ⟨page :: pages, hcontent, hpages, rfl, fun h => by cases h⟩
    · obtain ⟨hpage, hlater⟩ := forall_mem_cons.mp hpages
      rw [flatten_cons] at hcontent
      obtain ⟨walFileReader, hread, hrest⟩ := readPageData_of_le
        (show walPageSize ≤ reader.walFileReader.content.length by rw [hcontent, length_append, hpage]; omega)
      rw [hcontent, take_left' hpage] at hread
      rw [hcontent, drop_left' hpage] at hrest
      rw [readLoop_of_page hle hread] at h
      exact ih hrest hlater (Prod.ext rfl (Prod.mk.inj h).2)

/-- However the segment is read to its end, all its pages are recorded in their order. -/
theorem ReadsToEnd.recordPages {reader' : WalDeltaRecordingReader} {m' : DeltaFileManager}
    (h : ReadsToEnd w reader m reader' m') {pages : List Bytes}
    (hcontent : reader.walFileReader.content = pages.flatten) (hpages : ∀ page ∈ pages, page.length = walPageSize) :
    reader.toSegmentRecorder.recordPages w m pages = (reader'.toSegmentRecorder, m') := by
  induction h generalizing pages with
  | last hread =>
    obtain ⟨rest, -, -, hrecord, hend⟩ := readLoop_recordPages hcontent hpages hread
    obtain rfl := hend rfl
    exact hrecord.symm
  | step hread _ ih =>
    obtain ⟨rest, hcontent', hpages', hrecord, -⟩ := readLoop_recordPages hcontent hpages hread
    rw [← hrecord, ih hcontent' hpages']

end WalDeltaRecordingReader

end WalG.Delta
