import WalG.PageFile.RelFile

/-! # XLog records

A record is a fixed header, a part with the headers of its blocks and of its main data, and the
block images, block data and main data behind it.
-/
namespace WalG.XLog
open Foundation PageFile

def xLogRecordHeaderSize : ℕ := 24

def blockSize : ℕ := 8192

inductive ParseError where
  | read (e : ReadError)
  | zeroPage
  | zeroPageHeader
  | invalidPageHeader
  | zeroRecordHeader
  | inconsistentTotalLength (totalRecordLength : ℕ)
  | invalidResourceManagerID (resourceManagerID : ℕ)
  | invalidRecordBlockID (blockID : ℕ)
  | outOfOrderBlockID (actual : ℕ) (expected : ℤ)
  | inconsistentBlockDataState (hasData : Bool) (dataLength : ℕ)
  | inconsistentBlockImageHoleState (holeOffset holeLength imageLength : ℕ) (hasHole : Bool)
  | inconsistentBlockImageLength (hasHole isCompressed : Bool) (imageLength : ℕ)
  | noPrevRelFileNode
  | notEnoughDataToShrink (dataRemained toShrink : ℕ)
  | continuationNotFound
  | cantSavePartialParser
  deriving DecidableEq, Repr

structure XLogRecordHeader where
  totalRecordLength : ℕ
  xactID : ℕ
  prevRecordPtr : ℕ
  info : ℕ
  resourceManagerID : ℕ
  crc32Hash : ℕ
  deriving DecidableEq, Repr

structure XLogRecordBlockImageHeader where
  imageLength : ℕ
  holeOffset : ℕ
  holeLength : ℕ
  info : ℕ
  deriving DecidableEq, Repr

structure XLogRecordBlockHeader where
  blockID : ℕ
  forkFlags : ℕ
  dataLength : ℕ
  imageHeader : XLogRecordBlockImageHeader
  blockLocation : BlockLocation
  deriving DecidableEq, Repr

structure XLogRecordBlock where
  header : XLogRecordBlockHeader
  image : Bytes
  data : Bytes
  deriving DecidableEq, Repr

structure XLogRecord where
  header : XLogRecordHeader
  mainDataLen : ℕ
  origin : ℕ
  blocks : List XLogRecordBlock
  mainData : Bytes
  deriving DecidableEq, Repr

/-- A flag of the source: some bit of the mask is set. -/
def hasFlag (flags mask : ℕ) : Bool := decide (flags &&& mask ≠ 0)

def rmXlogID : ℕ := 0
def rmNextFreeID : ℕ := 22

/-- The resource manager's own bits of the record info. -/
def xlrRmgrInfo (info : ℕ) : ℕ := info &&& 0xF0

def xLogSwitch : ℕ := 0x40

def XLogRecord.isWALSwitch (record : XLogRecord) : Bool :=
  decide (record.header.resourceManagerID = rmXlogID ∧ xlrRmgrInfo record.header.info = xLogSwitch)

section Header

/-- One little-endian field of `w` bytes. -/
def readField (w : ℕ) (r : Reader) : Except ParseError (ℕ × Reader) := (r.readLE w).mapError .read

def XLogRecordHeader.isZero (header : XLogRecordHeader) : Bool :=
  decide (header = ⟨0, 0, 0, 0, 0, 0⟩)

def XLogRecordHeader.checkConsistency (header : XLogRecordHeader) : Except ParseError Unit :=
  if header.totalRecordLength < xLogRecordHeaderSize then
    if header.isZero then .error .zeroRecordHeader
    else .error (.inconsistentTotalLength header.totalRecordLength)
  else if rmNextFreeID ≤ header.resourceManagerID then
    .error (.invalidResourceManagerID header.resourceManagerID)
  else .ok ()

def readXLogRecordHeader (r : Reader) : Except ParseError (XLogRecordHeader × Reader) := do
  let (totalRecordLength, r) ← readField 4 r
  let (xactID, r) ← readField 4 r
  let (prevRecordPtr, r) ← readField 8 r
  let (info, r) ← readField 1 r
  let (resourceManagerID, r) ← readField 1 r
  let (_, r) ← readField 1 r
  let (_, r) ← readField 1 r
  let (crc32Hash, r) ← readField 4 r
  let header : XLogRecordHeader := ⟨totalRecordLength, xactID, prevRecordPtr, info, resourceManagerID, crc32Hash⟩
  header.checkConsistency
  .ok (header, r)

end Header

/-- A reader of the header part: it holds back the data announced so far. -/
structure ShrinkableReader where
  innerReader : Reader
  dataRemained : ℕ

namespace ShrinkableReader

def readField (w : ℕ) (r : ShrinkableReader) : Except ParseError (ℕ × ShrinkableReader) :=
  if w ≤ r.dataRemained then
    match r.innerReader.readLE w with
    | .error e => .error (.read e)
    | .ok (value, inner) => .ok (value, ⟨inner, r.dataRemained - w⟩)
  else if r.dataRemained = 0 ∨ r.innerReader.data = [] then .error (.read .eof)
  else .error (.read .unexpectedEOF)

def shrink (length : ℕ) (r : ShrinkableReader) : Except ParseError ShrinkableReader :=
  if r.dataRemained < length then .error (.notEnoughDataToShrink r.dataRemained length)
  else .ok ⟨r.innerReader, r.dataRemained - length⟩

theorem readField_dataRemained {w value : ℕ} {r r' : ShrinkableReader} (h : r.readField w = .ok (value, r')) :
    w ≤ r.dataRemained ∧ r'.dataRemained = r.dataRemained - w := by
  rw [readField] at h
  split_ifs at h with hw
  cases hread : r.innerReader.readLE w with
  | error e => rw [hread] at h; cases h
  | ok result =>
    rw [hread] at h
    cases h
    exact ⟨hw, rfl⟩

end ShrinkableReader

namespace XLogRecordBlockImageHeader

variable (h : XLogRecordBlockImageHeader)

def hasHole : Bool := hasFlag h.info 0x01
def isCompressed : Bool := hasFlag h.info 0x02

def checkConsistency : Except ParseError Unit :=
  if (h.hasHole ∧ (h.holeOffset = 0 ∨ h.holeLength = 0 ∨ h.imageLength = blockSize)) ∨
      (¬ h.hasHole ∧ (h.holeOffset ≠ 0 ∨ h.holeLength ≠ 0)) then
    .error (.inconsistentBlockImageHoleState h.holeOffset h.holeLength h.imageLength h.hasHole)
  else if (h.isCompressed ∧ h.imageLength = blockSize) ∨
      (¬ h.hasHole ∧ ¬ h.isCompressed ∧ h.imageLength ≠ blockSize) then
    .error (.inconsistentBlockImageLength h.hasHole h.isCompressed h.imageLength)
  else .ok ()

end XLogRecordBlockImageHeader

namespace XLogRecordBlockHeader

variable (h : XLogRecordBlockHeader)

def hasImage : Bool := hasFlag h.forkFlags 0x10
def hasData : Bool := hasFlag h.forkFlags 0x20
def hasSameRel : Bool := hasFlag h.forkFlags 0x80

end XLogRecordBlockHeader

/-- Only a compressed image with a hole stores the length of the hole; without compression
it is what the image lacks, in 16 bits. -/
def readImageHoleLength (info imageLength : ℕ) (r : ShrinkableReader) :
    Except ParseError (ℕ × ShrinkableReader) :=
  if hasFlag info 0x02 then
    if hasFlag info 0x01 then r.readField 2 else .ok (0, r)
  else .ok ((blockSize + 2 ^ 16 - imageLength) % 2 ^ 16, r)

def readXLogRecordBlockImageHeader (r : ShrinkableReader) :
    Except ParseError (XLogRecordBlockImageHeader × ShrinkableReader) := do
  let (imageLength, r) ← r.readField 2
  let (holeOffset, r) ← r.readField 2
  let (info, r) ← r.readField 1
  let (holeLength, r) ← readImageHoleLength info imageLength r
  let header : XLogRecordBlockImageHeader := ⟨imageLength, holeOffset, holeLength, info⟩
  header.checkConsistency
  .ok (header, r)

def readRelFileNode (r : ShrinkableReader) : Except ParseError (RelFileNode × ShrinkableReader) := do
  let (spcNode, r) ← r.readField 4
  let (dbNode, r) ← r.readField 4
  let (relNode, r) ← r.readField 4
  .ok (⟨.ofNat spcNode, .ofNat dbNode, .ofNat relNode⟩, r)

/-- The relation of a block: that of the block before it, or its own. -/
def readRelFileNodeOf (blockHasSameRel : Bool) (lastRelFileNode : Option RelFileNode) (r : ShrinkableReader) :
    Except ParseError (RelFileNode × ShrinkableReader) :=
  if blockHasSameRel then
    match lastRelFileNode with
    | none => .error .noPrevRelFileNode
    | some relFileNode => .ok (relFileNode, r)
  else readRelFileNode r

def readBlockLocation (blockHasSameRel : Bool) (lastRelFileNode : Option RelFileNode) (r : ShrinkableReader) :
    Except ParseError (BlockLocation × ShrinkableReader) := do
  let (relFileNode, r) ← readRelFileNodeOf blockHasSameRel lastRelFileNode r
  let (blockNo, r) ← r.readField 4
  .ok (⟨relFileNode, .ofNat blockNo⟩, r)

def xlrMaxBlockID : ℕ := 32

/-- The image header of a block, if it has one, and the data it announces. -/
def readImageHeaderOf (forkFlags : ℕ) (r : ShrinkableReader) :
    Except ParseError (XLogRecordBlockImageHeader × ShrinkableReader) :=
  if hasFlag forkFlags 0x10 then do
    let (imageHeader, r) ← readXLogRecordBlockImageHeader r
    let r ← r.shrink imageHeader.imageLength
    .ok (imageHeader, r)
  else .ok (⟨0, 0, 0, 0⟩, r)

def readXLogRecordBlockHeader (lastRelFileNode : Option RelFileNode) (blockID : ℕ) (maxReadBlockID : ℤ)
    (r : ShrinkableReader) : Except ParseError (XLogRecordBlockHeader × ShrinkableReader) := do
  if xlrMaxBlockID < blockID then .error (.invalidRecordBlockID blockID)
  else if (blockID : ℤ) ≤ maxReadBlockID then .error (.outOfOrderBlockID blockID maxReadBlockID)
  else
    let (forkFlags, r) ← r.readField 1
    let (dataLength, r) ← r.readField 2
    if hasFlag forkFlags 0x20 ≠ decide (dataLength ≠ 0) then
      .error (.inconsistentBlockDataState (hasFlag forkFlags 0x20) dataLength)
    else
      let r ← r.shrink dataLength
      let (imageHeader, r) ← readImageHeaderOf forkFlags r
      let (blockLocation, r) ← readBlockLocation (hasFlag forkFlags 0x80) lastRelFileNode r
      .ok (⟨blockID, forkFlags, dataLength, imageHeader, blockLocation⟩, r)

/-- What the loop over the header part has collected. -/
structure HeaderPart where
  reader : ShrinkableReader
  mainDataLen : ℕ
  origin : ℕ
  blocks : List XLogRecordBlockHeader
  lastRelFileNode : Option RelFileNode
  maxReadBlockID : ℤ

def xlrBlockIDDataShort : ℕ := 255
def xlrBlockIDDataLong : ℕ := 254
def xlrBlockIDOrigin : ℕ := 253

/-- One round of the loop, after the block id is read. -/
def HeaderPart.round (part : HeaderPart) (blockID : ℕ) (r : ShrinkableReader) : Except ParseError HeaderPart :=
  if blockID = xlrBlockIDDataShort then do
    let (mainDataLen, r) ← r.readField 1
    let r ← r.shrink mainDataLen
    .ok { part with reader := r, mainDataLen := mainDataLen }
  else if blockID = xlrBlockIDDataLong then do
    let (mainDataLen, r) ← r.readField 4
    let r ← r.shrink mainDataLen
    .ok { part with reader := r, mainDataLen := mainDataLen }
  else if blockID = xlrBlockIDOrigin then do
    let (origin, r) ← r.readField 2
    .ok { part with reader := r, origin := origin }
  else do
    let (blockHeader, r) ← readXLogRecordBlockHeader part.lastRelFileNode blockID part.maxReadBlockID r
    .ok { part with
      reader := r
      blocks := part.blocks ++ [blockHeader]
      lastRelFileNode := some blockHeader.blockLocation.relationFileNode
      maxReadBlockID := blockID }

section HeaderLoop

/-- A result leaves no more than `n` to be read. -/
def Bounded {α : Type} (left : α → ℕ) (n : ℕ) (result : Except ParseError α) : Prop := ∀ a, result = .ok a → left a ≤ n

section Bounded

variable {α β : Type} {left : α → ℕ} {left' : β → ℕ} {n : ℕ}

theorem bounded_error (e : ParseError) : Bounded left n (.error e) := fun _ h => by cases h

theorem bounded_ok {a : α} (h : left a ≤ n) : Bounded left n (.ok a) := fun _ h' => Except.ok.inj h' ▸ h

theorem Bounded.bind {x : Except ParseError α} {f : α → Except ParseError β} (h : Bounded left n x)
    (h' : ∀ a, Bounded left' (left a) (f a)) : Bounded left' n (x >>= f) := fun b hb => by
  obtain ⟨a, ha, hb⟩ := bind_ok hb
  exact (h' a b hb).trans (h a ha)

end Bounded

/-- What a reader of the header part has left. -/
def remained {α : Type} (result : α × ShrinkableReader) : ℕ := result.2.dataRemained

variable (r : ShrinkableReader) (sameRel : Bool) (last : Option RelFileNode)

theorem readField_bounded (w : ℕ) : Bounded remained r.dataRemained (r.readField w) := fun (_, _) h =>
  (ShrinkableReader.readField_dataRemained h).2.trans_le (Nat.sub_le _ _)

theorem shrink_bounded (length : ℕ) : Bounded ShrinkableReader.dataRemained r.dataRemained (r.shrink length) := by
  rw [ShrinkableReader.shrink]
  split_ifs
  · exact bounded_error _
  · exact bounded_ok (Nat.sub_le _ _)

theorem readImageHoleLength_bounded (info imageLength : ℕ) :
    Bounded remained r.dataRemained (readImageHoleLength info imageLength r) := by
  rw [readImageHoleLength]
  split_ifs
  · exact readField_bounded r 2
  all_goals exact bounded_ok le_rfl

theorem readXLogRecordBlockImageHeader_bounded :
    Bounded remained r.dataRemained (readXLogRecordBlockImageHeader r) := by
  refine (readField_bounded r 2).bind fun (imageLength, r₁) => ?_
  refine (readField_bounded r₁ 2).bind fun (_, r₂) => ?_
  refine (readField_bounded r₂ 1).bind fun (info, r₃) => ?_
  refine (readImageHoleLength_bounded r₃ info imageLength).bind fun (_, r₄) => ?_
  exact @Bounded.bind _ _ (fun _ => r₄.dataRemained) _ _ _ _ (fun _ _ => le_rfl) fun _ => bounded_ok le_rfl

theorem readImageHeaderOf_bounded (forkFlags : ℕ) :
    Bounded remained r.dataRemained (readImageHeaderOf forkFlags r) := by
  rw [readImageHeaderOf]
  split_ifs
  · refine (readXLogRecordBlockImageHeader_bounded r).bind fun (_, r₁) => ?_
    exact (shrink_bounded r₁ _).bind fun _ => bounded_ok le_rfl
  · exact bounded_ok le_rfl

theorem readRelFileNodeOf_bounded : Bounded remained r.dataRemained (readRelFileNodeOf sameRel last r) := by
  unfold readRelFileNodeOf
  split_ifs
  · cases last with
    | none => exact bounded_error _
    | some node => exact bounded_ok le_rfl
  · refine (readField_bounded r 4).bind fun (_, r₁) => ?_
    refine (readField_bounded r₁ 4).bind fun (_, r₂) => ?_
    exact (readField_bounded r₂ 4).bind fun _ => bounded_ok le_rfl

theorem readBlockLocation_bounded : Bounded remained r.dataRemained (readBlockLocation sameRel last r) := by
  refine (readRelFileNodeOf_bounded r sameRel last).bind fun (_, r₁) => ?_
  exact (readField_bounded r₁ 4).bind fun _ => bounded_ok le_rfl

theorem readXLogRecordBlockHeader_bounded (blockID : ℕ) (maxRead : ℤ) :
    Bounded remained r.dataRemained (readXLogRecordBlockHeader last blockID maxRead r) := by
  rw [readXLogRecordBlockHeader]
  split_ifs
  · exact bounded_error _
  · exact bounded_error _
  · refine (readField_bounded r 1).bind fun (forkFlags, r₁) => ?_
    refine (readField_bounded r₁ 2).bind fun (dataLength, r₂) => ?_
    dsimp only
    split_ifs
    · exact bounded_error _
    · refine (shrink_bounded r₂ dataLength).bind fun r₃ => ?_
      refine (readImageHeaderOf_bounded r₃ forkFlags).bind fun (_, r₄) => ?_
      exact (readBlockLocation_bounded r₄ _ last).bind fun _ => bounded_ok le_rfl

theorem HeaderPart.round_bounded (part : HeaderPart) (blockID : ℕ) :
    Bounded (fun part' => part'.reader.dataRemained) r.dataRemained (part.round blockID r) := by
  rw [round]
  split_ifs
  · exact (readField_bounded r 1).bind fun (_, r₁) => (shrink_bounded r₁ _).bind fun _ => bounded_ok le_rfl
  · exact (readField_bounded r 4).bind fun (_, r₁) => (shrink_bounded r₁ _).bind fun _ => bounded_ok le_rfl
  · exact (readField_bounded r 2).bind fun _ => bounded_ok le_rfl
  · exact (readXLogRecordBlockHeader_bounded r _ blockID _).bind fun _ => bounded_ok le_rfl

/-- The loop over the header part: it runs until only announced data remain. -/
def readXLogRecordBlockHeaderPart (part : HeaderPart) : Except ParseError HeaderPart :=
  if part.reader.dataRemained = 0 then .ok part
  else
    match _hread : part.reader.readField 1 with
    | .error e => .error e
    | .ok (blockID, r) =>
      match _hround : part.round blockID r with
      | .error e => .error e
      | .ok part' => readXLogRecordBlockHeaderPart part'
termination_by part.reader.dataRemained
decreasing_by
  have := ShrinkableReader.readField_dataRemained _hread
  have : part'.reader.dataRemained ≤ r.dataRemained := HeaderPart.round_bounded r part blockID part' _hround
  omega

end HeaderLoop

section Body

/-- The image and the data of each block stand behind the header part in the order of the blocks. -/
def readXLogRecordBlockDataAndImages (r : Reader) :
    List XLogRecordBlockHeader → Except ParseError (List XLogRecordBlock × Reader)
  | [] => .ok ([], r)
  | header :: headers => do
    let (image, r) ←
      if header.hasImage then (r.readFull header.imageHeader.imageLength).mapError ParseError.read else .ok ([], r)
    let (data, r) ←
      if header.hasData then (r.readFull header.dataLength).mapError ParseError.read else .ok ([], r)
    let (blocks, r) ← readXLogRecordBlockDataAndImages r headers
    .ok (⟨header, image, data⟩ :: blocks, r)

def readXLogRecordMainData (mainDataLen : ℕ) (r : Reader) : Except ParseError (Bytes × Reader) :=
  (r.readFull mainDataLen).mapError .read

def readXLogRecordBody (header : XLogRecordHeader) (r : Reader) : Except ParseError XLogRecord := do
  let part ← readXLogRecordBlockHeaderPart
    ⟨⟨r, header.totalRecordLength - xLogRecordHeaderSize⟩, 0, 0, [], none, -1⟩
  let (blocks, r) ← readXLogRecordBlockDataAndImages part.reader.innerReader part.blocks
  let (mainData, _) ← readXLogRecordMainData part.mainDataLen r
  .ok ⟨header, part.mainDataLen, part.origin, blocks, mainData⟩

def parseXLogRecordFromBytes (data : Bytes) : Except ParseError XLogRecord := do
  let (header, r) ← readXLogRecordHeader (.ofBytes data)
  readXLogRecordBody header r

/-- The locations named by the blocks of the records. Parsed records are never zero,
since their header was checked. -/
def extractBlockLocations (records : List XLogRecord) : List BlockLocation :=
  records.flatMap fun record => record.blocks.map fun block => block.header.blockLocation

theorem parseXLogRecordFromBytes_header {data : Bytes} {record : XLogRecord}
    (h : parseXLogRecordFromBytes data = .ok record) :
    ∃ r, readXLogRecordHeader (.ofBytes data) = .ok (record.header, r) := by
  obtain ⟨⟨header, r⟩, hheader, h⟩ := bind_ok h
  obtain ⟨part, -, h⟩ := bind_ok h
  obtain ⟨⟨blocks, r₁⟩, -, h⟩ := bind_ok h
  obtain ⟨⟨mainData, r₂⟩, -, h⟩ := bind_ok h
  cases h
  exact ⟨r, hheader⟩

end Body

end WalG.XLog
