import WalG.XLog.Record

/-! # WAL pages and the parser that runs over them

A page is a header, the rest of the record the page before left unfinished, and records at aligned
offsets; the last of them may be cut off at the end of the page.
-/
namespace WalG.XLog
open Foundation PageFile

def walPageSize : ℕ := 8192
def xLogRecordAlignment : ℕ := 8

def allZero (data : Bytes) : Bool := data.all (· == 0)

/-- A reader over one page that knows how far it has come. -/
structure AlignedReader where
  data : Bytes
  alreadyRead : ℕ

namespace AlignedReader

/-- One call of `Read`: what there is, up to the size of the buffer. -/
def read (n : ℕ) (r : AlignedReader) : Bytes × AlignedReader :=
  (r.data.take n, ⟨r.data.drop n, r.alreadyRead + (r.data.take n).length⟩)

/-- Skip to the next aligned offset; only a reader without any data reports the end of the file. -/
def readToAlignment (r : AlignedReader) : Except ParseError AlignedReader :=
  let paddingLength := xLogRecordAlignment - r.alreadyRead % xLogRecordAlignment
  if paddingLength = xLogRecordAlignment then .ok r
  else if r.data = [] then .error (.read .eof)
  else .ok (r.read paddingLength).2

def readField (w : ℕ) (r : AlignedReader) : Except ParseError (ℕ × AlignedReader) :=
  match (Reader.ofBytes r.data).readLE w with
  | .error e => .error (.read e)
  | .ok (value, inner) => .ok (value, ⟨inner.data, r.alreadyRead + w⟩)

end AlignedReader

structure XLogPageHeader where
  magic : ℕ
  info : ℕ
  timeLineID : ℕ
  pageAddress : ℕ
  remainingDataLen : ℕ
  deriving DecidableEq, Repr

namespace XLogPageHeader

variable (header : XLogPageHeader)

def isLong : Bool := hasFlag header.info 0x0002
def hasContinuationRecord : Bool := hasFlag header.info 0x0001
def isZero : Bool := decide (header = ⟨0, 0, 0, 0, 0⟩)

/-- No bit of the 16 is set besides the three defined ones. -/
def hasValidFlags : Bool := !hasFlag header.info 0xFFF8

def hasConsistentRemainingDataLen : Bool :=
  if header.hasContinuationRecord then decide (header.remainingDataLen ≠ 0)
  else decide (header.remainingDataLen = 0)

def isValid : Bool := header.hasValidFlags && header.hasConsistentRemainingDataLen

end XLogPageHeader

def readXLogPageHeaderFields (r : AlignedReader) : Except ParseError (XLogPageHeader × AlignedReader) := do
  let (magic, r) ← r.readField 2
  let (info, r) ← r.readField 2
  let (timeLineID, r) ← r.readField 4
  let (pageAddress, r) ← r.readField 8
  let (remainingDataLen, r) ← r.readField 4
  .ok (⟨magic, info, timeLineID, pageAddress, remainingDataLen⟩, r)

def readXLogLongPageHeaderData (r : AlignedReader) : Except ParseError AlignedReader := do
  let (_, r) ← r.readField 8
  let (_, r) ← r.readField 4
  let (_, r) ← r.readField 4
  .ok r

/-- The header, or what is wrong with it, and where the reader stands then. -/
def readXLogPageHeader (r : AlignedReader) : Except ParseError XLogPageHeader × AlignedReader :=
  match readXLogPageHeaderFields r with
  | .error e => (.error e, r)
  | .ok (header, r) =>
    if header.isZero then (.error .zeroPageHeader, r)
    else if !header.isValid then (.error .invalidPageHeader, r)
    else if header.isLong then
      match readXLogLongPageHeaderData r with
      | .error e => (.error e, r)
      | .ok r => (.ok header, r)
    else (.ok header, r)

/-- The bytes of the next record as far as the page has them, and whether that is all of it. -/
def tryReadXLogRecordData (r : AlignedReader) : Except ParseError (Bytes × Bool) × AlignedReader :=
  match r.readToAlignment with
  | .error _ => (.ok ([], false), r)
  | .ok r =>
    let headerData := (r.read xLogRecordHeaderSize).1
    let r := (r.read xLogRecordHeaderSize).2
    if headerData.length < xLogRecordHeaderSize then
      -- the end of the last non zero page of a partial file
      if headerData ≠ [] ∧ allZero headerData then (.error .zeroRecordHeader, r)
      else (.ok (headerData, false), r)
    else
      match readXLogRecordHeader (.ofBytes headerData) with
      | .error e => (.error e, r)
      | .ok (header, _) =>
        let content := r.read (min (header.totalRecordLength - xLogRecordHeaderSize) walPageSize)
        (.ok (headerData ++ content.1, decide (content.1.length = header.totalRecordLength - xLogRecordHeaderSize)),
          content.2)

structure XLogPage where
  header : XLogPageHeader
  prevRecordTrailingData : Bytes
  records : List XLogRecord
  nextRecordHeadingData : Bytes
  deriving DecidableEq, Repr

/-- A page with a flag: its records end before a rest of zeros, as on the last page of a
partial file. -/
def checkPartialPage (r : AlignedReader) (page : XLogPage) (recordReadingErr : ParseError) :
    Except ParseError (XLogPage × Bool) :=
  if recordReadingErr = .zeroRecordHeader ∧ allZero r.data then .ok (page, true) else .error recordReadingErr

theorem AlignedReader.readToAlignment_length {r r' : AlignedReader} (h : r.readToAlignment = .ok r') :
    r'.data.length ≤ r.data.length := by
  simp only [readToAlignment] at h
  split_ifs at h
  · rw [← Except.ok.inj h]
  · rw [← Except.ok.inj h, read, List.length_drop]
    exact Nat.sub_le _ _

theorem tryReadXLogRecordData_length {r r' : AlignedReader} {data : Bytes}
    (h : tryReadXLogRecordData r = (.ok (data, true), r')) : r'.data.length < r.data.length := by
  unfold tryReadXLogRecordData at h
  split at h
  · cases h
  · rename_i r₁ hr₁
    have hle := AlignedReader.readToAlignment_length hr₁
    dsimp only at h
    split_ifs at h with hshort hzero
    · cases h
    · cases h
    · split at h
      · cases h
      · have hr' : r' = _ := (Prod.mk.inj h).2.symm
        rw [hr']
        simp only [AlignedReader.read, List.length_take, List.length_drop, xLogRecordHeaderSize] at hshort ⊢
        omega

/-- Records are read off the page until one ends the segment, one is cut off, or none is left. -/
def readXLogPage (header : XLogPageHeader) (remainingData : Bytes) (pageRecords : List XLogRecord)
    (r : AlignedReader) : Except ParseError (XLogPage × Bool) :=
  match _hread : tryReadXLogRecordData r with
  | (.error e, r') => checkPartialPage r' ⟨header, remainingData, pageRecords, []⟩ e
  | (.ok (recordData, false), _) => .ok (⟨header, remainingData, pageRecords, recordData⟩, false)
  | (.ok (recordData, true), r') =>
    match parseXLogRecordFromBytes recordData with
    | .error e => checkPartialPage r' ⟨header, remainingData, pageRecords, []⟩ e
    | .ok record =>
      if record.isWALSwitch then .ok (⟨header, remainingData, pageRecords ++ [record], []⟩, false)
      else readXLogPage header remainingData (pageRecords ++ [record]) r'
termination_by r.data.length
decreasing_by exact tryReadXLogRecordData_length _hread

structure WalParser where
  currentRecordData : Bytes
  hasCurrentRecordBeginning : Bool
  deriving DecidableEq, Repr

def newWalParser : WalParser := ⟨[], false⟩

/-- What one page gives: the rest of a record whose beginning the parser does not have,
the records that end on the page, and whether the page is partial. -/
structure PageRecords where
  prevRecordTail : Bytes
  records : List XLogRecord
  isPartial : Bool
  deriving DecidableEq, Repr

namespace WalParser

def setCurrentRecordData (data : Bytes) : WalParser := ⟨data, decide (0 < data.length)⟩

def invalidate : WalParser := setCurrentRecordData []

variable (parser : WalParser)

def parsePage (page : Bytes) : Except ParseError (XLogPage × Bool) :=
  match readXLogPageHeader ⟨page, 0⟩ with
  | (.error e, r) => if e = .zeroPageHeader ∧ allZero r.data then .error .zeroPage else .error e
  | (.ok header, r) =>
    match r.readToAlignment with
    | .error e => .error e
    | .ok r =>
      let remainingData := (r.read (min header.remainingDataLen walPageSize)).1
      let r := (r.read (min header.remainingDataLen walPageSize)).2
      if remainingData.length ≠ header.remainingDataLen then .ok (⟨header, remainingData, [], []⟩, false)
      else if parser.hasCurrentRecordBeginning then
        match parseXLogRecordFromBytes (parser.currentRecordData ++ remainingData) with
        | .error e => .error e
        | .ok record =>
          if record.isWALSwitch then .ok (⟨header, remainingData, [], []⟩, false)
          else readXLogPage header remainingData [] r
      else readXLogPage header remainingData [] r

def parseRecordsFromPage (data : Bytes) : Except ParseError PageRecords × WalParser :=
  match parser.parsePage data with
  | .error e => (.error e, parser)
  | .ok (page, isPartial) =>
    let currentRecordData := parser.currentRecordData ++ page.prevRecordTrailingData
    if page.prevRecordTrailingData.length < page.header.remainingDataLen then
      (.ok ⟨[], [], isPartial⟩, { parser with currentRecordData := currentRecordData })
    else if !parser.hasCurrentRecordBeginning then
      (.ok ⟨currentRecordData, page.records, isPartial⟩, setCurrentRecordData page.nextRecordHeadingData)
    else
      match readXLogRecordHeader (.ofBytes currentRecordData) with
      | .error e => (.error e, parser)
      | .ok (header, _) =>
        if header.totalRecordLength ≠ currentRecordData.length then (.error .continuationNotFound, parser)
        else
          match parseXLogRecordFromBytes currentRecordData with
          | .error e => (.error e, parser)
          | .ok record =>
            (.ok ⟨[], record :: page.records, isPartial⟩, setCurrentRecordData page.nextRecordHeadingData)

def save : Except ParseError Bytes :=
  if 0 < parser.currentRecordData.length ∧ ¬ parser.hasCurrentRecordBeginning then .error .cantSavePartialParser
  else .ok (leBytes 4 parser.currentRecordData.length ++ parser.currentRecordData)

end WalParser

def loadWalParser (r : Reader) : Except ParseError WalParser := do
  let (dataLen, r) ← readField 4 r
  let (data, _) ← (r.readFull dataLen).mapError .read
  .ok ⟨data, decide (0 < data.length)⟩

def loadWalParserFromCurrentRecordHead (currentRecordHead : Bytes) : WalParser := ⟨currentRecordHead, true⟩

/-- The pages of a file in order: zero and partial pages are passed over, any other error ends the run. -/
def WalParser.parsePages (parser : WalParser) : List Bytes → Except ParseError (List PageRecords) × WalParser
  | [] => (.ok [], parser)
  | page :: pages =>
    match parser.parseRecordsFromPage page with
    | (.error .zeroPage, parser) => parser.parsePages pages
    | (.error e, parser) => (.error e, parser)
    | (.ok output, parser) =>
      match parser.parsePages pages with
      | (.error e, parser) => (.error e, parser)
      | (.ok outputs, parser) => (.ok (output :: outputs), parser)

/-- The locations of the records of a WAL file, which ends after its last whole page. -/
def extractLocationsFromWalFile (parser : WalParser) (pages : List Bytes) :
    Except ParseError (List BlockLocation) × WalParser :=
  match parser.parsePages pages with
  | (.error e, parser) => (.error e, parser)
  | (.ok outputs, parser) => (.ok (outputs.flatMap fun output => extractBlockLocations output.records), parser)

end WalG.XLog
