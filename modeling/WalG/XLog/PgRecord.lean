import WalG.XLog.RecordBytes

/-! # Records as PostgreSQL writes them

PostgreSQL writes the headers of the blocks in the order of their ids, then the replication origin
and the length of the main data, and behind them the image and the data of each block and the main
data.
-/
namespace WalG.XLog
open Foundation PageFile

/-- How much of a page an image keeps, and in which form. -/
inductive PgImageForm where
  | plain
  | hole (offset : UInt16)
  | compressed
  | compressedHole (offset length : UInt16)

namespace PgImageForm

def hasHole : PgImageForm → Bool
  | plain => false
  | hole _ => true
  | compressed => false
  | compressedHole _ _ => true

def isCompressed : PgImageForm → Bool
  | plain => false
  | hole _ => false
  | compressed => true
  | compressedHole _ _ => true

def holeOffset : PgImageForm → ℕ
  | plain => 0
  | hole offset => offset.toNat
  | compressed => 0
  | compressedHole offset _ => offset.toNat

end PgImageForm

/-- A full-page image of a block. -/
structure PgImage where
  bytes : Bytes
  form : PgImageForm
  apply : Bool

/-- A block reference; without a relation of its own it has that of the block before it. -/
structure PgBlock where
  id : Fin 33
  fork : Fin 16
  willInit : Bool
  relation : Option RelFileNode
  blockNo : UInt32
  image : Option PgImage
  data : Bytes

structure PgRecord where
  xactID : UInt32
  prevRecordPtr : UInt64
  info : UInt8
  resourceManagerID : Fin 22
  crc32Hash : UInt32
  blocks : List PgBlock
  origin : Option UInt16
  mainData : Bytes

section Encoding

def imageInfoOf (hasHole isCompressed apply : Bool) : ℕ :=
  (if hasHole then 0x01 else 0) + (if isCompressed then 0x02 else 0) + if apply then 0x04 else 0

namespace PgImage

variable (image : PgImage)

def info : ℕ := imageInfoOf image.form.hasHole image.form.isCompressed image.apply

def holeLength : ℕ :=
  match image.form with
  | .plain => 0
  | .hole _ => blockSize - image.bytes.length
  | .compressed => 0
  | .compressedHole _ length => length.toNat

/-- A plain image is a page, one with a hole is shorter, and no compressed one is as long as a page. -/
def WellFormed : Prop :=
  match image.form with
  | .plain => image.bytes.length = blockSize
  | .hole offset => 0 < offset.toNat ∧ image.bytes.length < blockSize
  | .compressed => image.bytes.length < 2 ^ 16 ∧ image.bytes.length ≠ blockSize
  | .compressedHole offset length =>
    0 < offset.toNat ∧ 0 < length.toNat ∧ image.bytes.length < 2 ^ 16 ∧ image.bytes.length ≠ blockSize

/-- The length of the hole is written only for a compressed image with a hole. -/
def encodeHeader : Bytes :=
  leBytes 2 image.bytes.length ++ leBytes 2 image.form.holeOffset ++ leBytes 1 image.info ++
    match image.form with
    | .compressedHole _ length => leBytes 2 length.toNat
    | _ => []

end PgImage

def forkFlagsOf (fork : Fin 16) (hasImage hasData willInit sameRel : Bool) : ℕ :=
  fork + (if hasImage then 0x10 else 0) + (if hasData then 0x20 else 0) + (if willInit then 0x40 else 0) +
    if sameRel then 0x80 else 0

namespace PgBlock

variable (block : PgBlock)

def forkFlags : ℕ :=
  forkFlagsOf block.fork block.image.isSome (!block.data.isEmpty) block.willInit block.relation.isNone

def encodeHeader : Bytes :=
  leBytes 1 block.id ++ leBytes 1 block.forkFlags ++ leBytes 2 block.data.length ++
    (block.image.elim [] PgImage.encodeHeader) ++ (block.relation.elim [] encodeRelFileNode) ++
    leBytes 4 block.blockNo.toNat

def imageBytes : Bytes := block.image.elim [] PgImage.bytes

structure WellFormed : Prop where
  image : ∀ image ∈ block.image, image.WellFormed
  data : block.data.length < 2 ^ 16

end PgBlock

namespace PgRecord

variable (record : PgRecord)

def encodeOrigin : Bytes := record.origin.elim [] fun origin => leBytes 1 253 ++ leBytes 2 origin.toNat

/-- No main data has no header, and up to 255 bytes have a short one. -/
def encodeMainDataHeader : Bytes :=
  if record.mainData.length = 0 then []
  else if record.mainData.length ≤ 255 then leBytes 1 255 ++ leBytes 1 record.mainData.length
  else leBytes 1 254 ++ leBytes 4 record.mainData.length

def encodeHeaderPart : Bytes :=
  record.blocks.flatMap PgBlock.encodeHeader ++ record.encodeOrigin ++ record.encodeMainDataHeader

def encodeBody : Bytes := (record.blocks.flatMap fun block => block.imageBytes ++ block.data) ++ record.mainData

def totalLength : ℕ := xLogRecordHeaderSize + record.encodeHeaderPart.length + record.encodeBody.length

def encode : Bytes :=
  leBytes 4 record.totalLength ++ leBytes 4 record.xactID.toNat ++ leBytes 8 record.prevRecordPtr.toNat ++
    leBytes 1 record.info.toNat ++ leBytes 1 record.resourceManagerID ++ [0, 0] ++ leBytes 4 record.crc32Hash.toNat ++
    record.encodeHeaderPart ++ record.encodeBody

/-- The ids of the blocks increase, the first block has a relation of its own, and the length fits its field. -/
structure WellFormed : Prop where
  ids : record.blocks.Pairwise fun block next => block.id < next.id
  relation : ∀ block ∈ record.blocks.head?, block.relation.isSome
  blocks : ∀ block ∈ record.blocks, block.WellFormed
  total : record.totalLength < 2 ^ 32

end PgRecord

end Encoding

section Parsed

def PgImage.header (image : PgImage) : XLogRecordBlockImageHeader :=
  ⟨image.bytes.length, image.form.holeOffset, image.holeLength, image.info⟩

/-- The relation of a block behind a block of the relation `last`. -/
def PgBlock.relationAfter (block : PgBlock) (last : Option RelFileNode) : RelFileNode :=
  (block.relation.or last).getD ⟨0, 0, 0⟩

def PgBlock.parsedAfter (block : PgBlock) (last : Option RelFileNode) : XLogRecordBlock where
  header :=
    { blockID := block.id
      forkFlags := block.forkFlags
      dataLength := block.data.length
      imageHeader := block.image.elim ⟨0, 0, 0, 0⟩ PgImage.header
      blockLocation := ⟨block.relationAfter last, block.blockNo⟩ }
  image := block.imageBytes
  data := block.data

/-- The blocks with the relation of each taken from the nearest block before it, if it has none of its own. -/
def parsedBlocks : Option RelFileNode → List PgBlock → List XLogRecordBlock
  | _, [] => []
  | last, block :: blocks => block.parsedAfter last :: parsedBlocks (some (block.relationAfter last)) blocks

def PgRecord.parsed (record : PgRecord) : XLogRecord where
  header :=
    { totalRecordLength := record.totalLength
      xactID := record.xactID.toNat
      prevRecordPtr := record.prevRecordPtr.toNat
      info := record.info.toNat
      resourceManagerID := record.resourceManagerID
      crc32Hash := record.crc32Hash.toNat }
  mainDataLen := record.mainData.length
  origin := record.origin.elim 0 UInt16.toNat
  blocks := parsedBlocks none record.blocks
  mainData := record.mainData

end Parsed

end WalG.XLog
