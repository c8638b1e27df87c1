import WalG.XLog.HeaderEntries
import WalG.XLog.RecordScan

/-! # The bytes of a record

A record is accepted exactly when its bytes are a header, a list of header entries, and the images
and data that the collected lengths ask for.
-/
namespace WalG.XLog
open Foundation PageFile List

section Pieces

/-- The bytes that are taken off the reader. -/
def Reads (r : Reader) (bytes : Bytes) (r' : Reader) : Prop := r.data = bytes ++ r'.data ∧ r'.ending = r.ending

theorem Reads.nil_iff {r r' : Reader} : Reads r [] r' ↔ r' = r := by
  obtain ⟨data, ending⟩ := r
  obtain ⟨data', ending'⟩ := r'
  simp [Reads, eq_comm]

theorem Reads.append_iff {r r' : Reader} {bytes bytes' : Bytes} :
    Reads r (bytes ++ bytes') r' ↔ ∃ r₁, Reads r bytes r₁ ∧ Reads r₁ bytes' r' := by
  constructor
  · rintro ⟨hdata, hending⟩
    exact ⟨⟨bytes' ++ r'.data, r.ending⟩, ⟨by rw [hdata, append_assoc], rfl⟩, rfl, hending⟩
  · rintro ⟨r₁, ⟨hdata, hending⟩, hdata', hending'⟩
    exact ⟨by rw [hdata, hdata', append_assoc], hending'.trans hending⟩

/-- The image or the data of a block, if it is present. -/
def readPiece (present : Bool) (n : ℕ) (r : Reader) : Except ParseError (Bytes × Reader) :=
  if present then (r.readFull n).mapError .read else .ok ([], r)

theorem readPiece_iff {present : Bool} {n : ℕ} {r r' : Reader} {bytes : Bytes} :
    readPiece present n r = .ok (bytes, r') ↔ bytes.length = (if present then n else 0) ∧ Reads r bytes r' := by
  cases present with
  | true => exact mapError_ok_iff.trans Reader.readFull_iff
  | false =>
    simp only [readPiece, Bool.false_eq_true, if_false, Except.ok.injEq, Prod.mk.injEq, length_eq_zero_iff]
    constructor
    · rintro ⟨rfl, rfl⟩
      exact ⟨rfl, Reads.nil_iff.mpr rfl⟩
    · rintro ⟨rfl, hreads⟩
      exact ⟨rfl, (Reads.nil_iff.mp hreads).symm⟩

theorem readXLogRecordBlockDataAndImages_cons (r : Reader) (header : XLogRecordBlockHeader)
    (headers : List XLogRecordBlockHeader) : readXLogRecordBlockDataAndImages r (header :: headers) = (do
      let (image, r) ← readPiece header.hasImage header.imageHeader.imageLength r
      let (data, r) ← readPiece header.hasData header.dataLength r
      let (blocks, r) ← readXLogRecordBlockDataAndImages r headers
      .ok (⟨header, image, data⟩ :: blocks, r)) := by
  rw [readXLogRecordBlockDataAndImages]
  cases header.hasImage <;> cases header.hasData <;> rfl

end Pieces

namespace XLogRecordBlock

variable (block : XLogRecordBlock)

/-- The image and the data of a block, as they stand behind the header part. -/
def payload : Bytes := block.image ++ block.data

/-- The image and the data have the lengths of the header. -/
structure Filled : Prop where
  image : block.image.length = block.header.imageLength
  data : block.data.length = if block.header.hasData then block.header.dataLength else 0

end XLogRecordBlock

theorem readXLogRecordBlockDataAndImages_iff {headers : List XLogRecordBlockHeader} {r r' : Reader}
    {blocks : List XLogRecordBlock} : readXLogRecordBlockDataAndImages r headers = .ok (blocks, r') ↔
      blocks.map XLogRecordBlock.header = headers ∧ (∀ block ∈ blocks, block.Filled) ∧
      Reads r (blocks.flatMap XLogRecordBlock.payload) r' := by
  induction headers generalizing r blocks with
  | nil =>
    rw [readXLogRecordBlockDataAndImages, map_eq_nil_iff, Except.ok.injEq, Prod.mk.injEq]
    constructor
    · rintro ⟨rfl, rfl⟩
      exact ⟨rfl, by simp, Reads.nil_iff.mpr rfl⟩
    · rintro ⟨rfl, -, hreads⟩
      exact ⟨rfl, (Reads.nil_iff.mp hreads).symm⟩
  | cons header headers ih =>
    constructor
    · intro h
      rw [readXLogRecordBlockDataAndImages_cons] at h
      obtain ⟨⟨image, r₁⟩, h₁, h⟩ := bind_ok h
      obtain ⟨⟨data, r₂⟩, h₂, h⟩ := bind_ok h
      obtain ⟨⟨blocks', r₃⟩, h₃, h⟩ := bind_ok h
      cases h
      obtain ⟨himage, hreads₁⟩ := readPiece_iff.mp h₁
      obtain ⟨hdata, hreads₂⟩ := readPiece_iff.mp h₂
      obtain ⟨hheaders, hfilled, hreads₃⟩ := ih.mp h₃
      refine ⟨congrArg _ hheaders, forall_mem_cons.mpr ⟨⟨himage, hdata⟩, hfilled⟩, ?_⟩
      rw [flatMap_cons, Reads.append_iff]
      exact ⟨r₂, Reads.append_iff.mpr ⟨r₁, hreads₁, hreads₂⟩, hreads₃⟩
    · rintro ⟨hheaders, hfilled, hreads⟩
      obtain ⟨block, blocks', rfl, rfl, rfl⟩ := map_eq_cons_iff.mp hheaders
      rw [forall_mem_cons] at hfilled
      rw [flatMap_cons, Reads.append_iff] at hreads
      obtain ⟨r₂, hreads, hreads₃⟩ := hreads
      obtain ⟨r₁, hreads₁, hreads₂⟩ := Reads.append_iff.mp hreads
      rw [readXLogRecordBlockDataAndImages_cons]
      refine bind_of_ok (readPiece_iff.mpr ⟨hfilled.1.image, hreads₁⟩) ?_
      refine bind_of_ok (readPiece_iff.mpr ⟨hfilled.1.data, hreads₂⟩) ?_
      exact bind_of_ok (ih.mpr ⟨rfl, hfilled.2, hreads₃⟩) rfl

section Layout

/-- The loop over the header part begins with nothing collected. -/
def HeaderPart.start (r : ShrinkableReader) : HeaderPart := ⟨r, 0, 0, [], none, -1⟩

theorem HeaderPart.start_admitsAll {entries : List HeaderEntry} (r r' : ShrinkableReader) :
    (start r).AdmitsAll entries ↔ (start r').AdmitsAll entries :=
  show ((start r').withReader r).AdmitsAll entries ↔ _ from admitsAll_withReader

/-- What the entries leave collected. -/
def collected (data : Bytes) (entries : List HeaderEntry) : HeaderPart :=
  entries.foldl HeaderPart.add (.start ⟨.ofBytes data, 0⟩)

theorem foldl_add_start (data : Bytes) (entries : List HeaderEntry) (r : ShrinkableReader) :
    entries.foldl HeaderPart.add (.start r) = (collected data entries).withReader r :=
  HeaderPart.foldl_add_withReader entries (.start ⟨.ofBytes data, 0⟩) r

/-- The record's bytes begin with a header and these header entries, and the record is as long as its header, the
entries and the data that they announce. -/
structure HasEntries (data : Bytes) (entries : List HeaderEntry) : Prop where
  size : xLogRecordHeaderSize ≤ data.length
  consistent : (headerOf data).checkConsistency = .ok ()
  admitted : (HeaderPart.start ⟨.ofBytes data, 0⟩).AdmitsAll entries
  bytes : encodeEntries entries <+: data.drop xLogRecordHeaderSize
  total : (headerOf data).totalRecordLength =
    xLogRecordHeaderSize + (encodeEntries entries).length + announcedBy entries

/-- The images, the block data and the main data behind the header part, with the collected lengths. -/
structure HasBody (data : Bytes) (entries : List HeaderEntry) (record : XLogRecord) : Prop where
  header : record.header = headerOf data
  mainDataLen : record.mainDataLen = (collected data entries).mainDataLen
  origin : record.origin = (collected data entries).origin
  headers : record.blocks.map XLogRecordBlock.header = (collected data entries).blocks
  filled : ∀ block ∈ record.blocks, block.Filled
  mainData : record.mainData.length = record.mainDataLen
  slices : record.blocks.flatMap XLogRecordBlock.payload ++ record.mainData <+:
    data.drop (xLogRecordHeaderSize + (encodeEntries entries).length)

variable {data : Bytes} {entries : List HeaderEntry} {record : XLogRecord}

theorem totalRecordLength_ge {header : XLogRecordHeader} (h : header.checkConsistency = .ok ()) :
    xLogRecordHeaderSize ≤ header.totalRecordLength := by
  unfold XLogRecordHeader.checkConsistency at h
  split_ifs at h with hlt
  exact not_lt.mp hlt

/-- The parser with its header part replaced by what the entries leave collected. -/
theorem parseXLogRecordFromBytes_of_hasEntries (h : HasEntries data entries) :
    parseXLogRecordFromBytes data = (do
      let (blocks, r) ← readXLogRecordBlockDataAndImages
        ⟨data.drop (xLogRecordHeaderSize + (encodeEntries entries).length), .eof⟩ (collected data entries).blocks
      let (mainData, _) ← readXLogRecordMainData (collected data entries).mainDataLen r
      .ok ⟨headerOf data, (collected data entries).mainDataLen, (collected data entries).origin,
        blocks, mainData⟩) := by
  obtain ⟨rest, hrest⟩ := h.bytes
  have hrest' : data.drop (xLogRecordHeaderSize + (encodeEntries entries).length) = rest := by
    rw [← drop_drop, ← hrest, drop_left]
  have htakes : ShrinkableReader.Takes ⟨⟨data.drop xLogRecordHeaderSize, .eof⟩,
      (headerOf data).totalRecordLength - xLogRecordHeaderSize⟩ (encodeEntries entries) (announcedBy entries)
      ⟨⟨rest, .eof⟩, 0⟩ := by
    refine ⟨hrest.symm, rfl, ?_⟩
    rw [h.total]
    dsimp only
    omega
  have hpart : readXLogRecordBlockHeaderPart (.start ⟨⟨data.drop xLogRecordHeaderSize, .eof⟩,
      (headerOf data).totalRecordLength - xLogRecordHeaderSize⟩) =
      .ok ((collected data entries).withReader ⟨⟨rest, .eof⟩, 0⟩) := by
    rw [readXLogRecordBlockHeaderPart_encode ((HeaderPart.start_admitsAll _ _).mpr h.admitted) rfl htakes]
    rw [foldl_add_start data]
    rfl
  rw [parseXLogRecordFromBytes, readXLogRecordHeader_of_le h.size, h.consistent, ok_bind, ok_bind, hrest']
  change (readXLogRecordBlockHeaderPart (.start _) >>= _) = _
  rw [hpart]
  rfl

theorem exists_hasEntries (h : parseXLogRecordFromBytes data = .ok record) : ∃ entries, HasEntries data entries := by
  obtain ⟨r, hread⟩ := parseXLogRecordFromBytes_header h
  have hsize := readXLogRecordHeader_length hread
  rw [parseXLogRecordFromBytes, readXLogRecordHeader_of_le hsize] at h
  obtain ⟨⟨header, r₁⟩, hheader, h⟩ := bind_ok h
  obtain ⟨_, hconsistent, hheader⟩ := bind_ok hheader
  cases hheader
  obtain ⟨part, hpart, -⟩ := bind_ok h
  obtain ⟨entries, hadmits, htakes, hend, -⟩ := readXLogRecordBlockHeaderPart_ok hpart
  have hremained := htakes.remained
  have hge := totalRecordLength_ge hconsistent
  rw [hend] at hremained
  dsimp only at hremained
  exact ⟨entries, hsize, hconsistent, (HeaderPart.start_admitsAll _ _).mp hadmits, ⟨_, htakes.data.symm⟩, by omega⟩

/-- With the entries of its header part known, a record is accepted exactly if its body is there. -/
theorem parseXLogRecordFromBytes_iff (h : HasEntries data entries) :
    parseXLogRecordFromBytes data = .ok record ↔ HasBody data entries record := by
  rw [parseXLogRecordFromBytes_of_hasEntries h]
  constructor
  · intro hparse
    obtain ⟨⟨blocks, r₁⟩, hblocks, hparse⟩ := bind_ok hparse
    obtain ⟨⟨mainData, r₂⟩, hmain, hparse⟩ := bind_ok hparse
    cases hparse
    obtain ⟨hheaders, hfilled, hreads⟩ := readXLogRecordBlockDataAndImages_iff.mp hblocks
    obtain ⟨hlength, hreads'⟩ := Reader.readFull_iff.mp (mapError_ok_iff.mp hmain)
    have hslices := Reads.append_iff.mpr ⟨r₁, hreads, hreads'⟩
    exact ⟨rfl, rfl, rfl, hheaders, hfilled, hlength, ⟨_, hslices.1.symm⟩⟩
  · rintro hbody
    obtain ⟨rest, hrest⟩ := hbody.slices
    have hreads : Reads ⟨data.drop (xLogRecordHeaderSize + (encodeEntries entries).length), .eof⟩
      (record.blocks.flatMap XLogRecordBlock.payload ++ record.mainData) ⟨rest, .eof⟩ := ⟨hrest.symm, rfl⟩
    obtain ⟨r₁, hblocks, hmain⟩ := Reads.append_iff.mp hreads
    refine bind_of_ok (readXLogRecordBlockDataAndImages_iff.mpr ⟨hbody.headers, hbody.filled, hblocks⟩) ?_
    refine bind_of_ok (mapError_ok_iff.mpr (Reader.readFull_iff.mpr ⟨hbody.mainData.trans hbody.mainDataLen, hmain⟩)) ?_
    rw [← hbody.header, ← hbody.mainDataLen, ← hbody.origin]

end Layout

section Account

/-- The lengths of main data that the entries announce, in their order. -/
def mainDataLens (entries : List HeaderEntry) : List ℕ :=
  entries.filterMap fun
    | .dataShort mainDataLen => some mainDataLen
    | .dataLong mainDataLen => some mainDataLen
    | .origin _ => none
    | .block _ => none

def blockHeaders (entries : List HeaderEntry) : List XLogRecordBlockHeader :=
  entries.filterMap fun
    | .block header => some header
    | _ => none

variable {data : Bytes} {entries : List HeaderEntry} {record : XLogRecord}

theorem foldl_add_mainDataLen (entries : List HeaderEntry) (part : HeaderPart) :
    (entries.foldl HeaderPart.add part).mainDataLen = (mainDataLens entries).getLastD part.mainDataLen := by
  induction entries generalizing part with
  | nil => rfl
  | cons entry entries ih =>
    rw [foldl_cons, ih]
    cases entry with
    | dataShort mainDataLen => exact (getLastD_cons ..).symm
    | dataLong mainDataLen => exact (getLastD_cons ..).symm
    | origin value => rfl
    | block header => rfl

theorem foldl_add_blocks (entries : List HeaderEntry) (part : HeaderPart) :
    (entries.foldl HeaderPart.add part).blocks = part.blocks ++ blockHeaders entries := by
  induction entries generalizing part with
  | nil => exact (append_nil _).symm
  | cons entry entries ih =>
    rw [foldl_cons, ih]
    cases entry <;> simp [blockHeaders, HeaderPart.add]

theorem announcedBy_eq (entries : List HeaderEntry) : announcedBy entries = (mainDataLens entries).sum +
    ((blockHeaders entries).map fun header => header.dataLength + header.imageLength).sum := by
  induction entries with
  | nil => rfl
  | cons entry entries ih =>
    have hcons : announcedBy (entry :: entries) = entry.announced + announcedBy entries := rfl
    rw [hcons, ih]
    cases entry <;> simp [mainDataLens, blockHeaders, HeaderEntry.announced] <;> omega

theorem valid_of_admitsAll {part : HeaderPart} (h : part.AdmitsAll entries) :
    ∀ header ∈ blockHeaders entries, ∃ last maxReadBlockID, header.Valid last maxReadBlockID := by
  induction entries generalizing part with
  | nil => simp [blockHeaders]
  | cons entry entries ih =>
    cases entry with
    | block header =>
      exact forall_mem_cons.mpr ⟨⟨_, _, h.1⟩, ih h.2⟩
    | dataShort mainDataLen => exact ih h.2
    | dataLong mainDataLen => exact ih h.2
    | origin value => exact ih h.2

/-- The record and its parts make up all its bytes. -/
structure Accounted (data : Bytes) (entries : List HeaderEntry) (record : XLogRecord) : Prop where
  total : xLogRecordHeaderSize + (encodeEntries entries).length +
      (record.blocks.map fun block => block.image.length).sum +
    (record.blocks.map fun block => block.data.length).sum + record.mainData.length = record.header.totalRecordLength
  holes : ∀ block ∈ record.blocks, block.header.hasImage → ¬ block.header.imageHeader.isCompressed →
    block.image.length + block.header.imageHeader.holeLength = blockSize
  slices : record.blocks.flatMap XLogRecordBlock.payload ++ record.mainData <+:
    data.drop (xLogRecordHeaderSize + (encodeEntries entries).length)

/-- The main data is announced once, apart from announcements of no data before it. -/
def AnnouncedOnce (entries : List HeaderEntry) : Prop :=
  ∀ mainDataLen ∈ (mainDataLens entries).dropLast, mainDataLen = 0

instance (entries : List HeaderEntry) : Decidable (AnnouncedOnce entries) :=
  inferInstanceAs (Decidable (∀ mainDataLen ∈ (mainDataLens entries).dropLast, mainDataLen = 0))

/-- No image is longer than a page, unless it is compressed. -/
def ImagesFit (entries : List HeaderEntry) : Prop :=
  ∀ header ∈ blockHeaders entries, header.hasImage → ¬ header.imageHeader.isCompressed →
    header.imageHeader.imageLength ≤ blockSize

instance (entries : List HeaderEntry) : Decidable (ImagesFit entries) :=
  inferInstanceAs (Decidable (∀ header ∈ blockHeaders entries, header.hasImage → ¬ header.imageHeader.isCompressed →
    header.imageHeader.imageLength ≤ blockSize))

theorem sum_eq_getLastD_iff (lens : List ℕ) : lens.sum = lens.getLastD 0 ↔ ∀ len ∈ lens.dropLast, len = 0 := by
  rcases eq_nil_or_concat lens with rfl | ⟨init, last, rfl⟩
  · simp
  · simp [sum_eq_zero_iff]

theorem holeLength_add_iff {header : XLogRecordBlockImageHeader} (h : header.Valid) (hplain : ¬ header.isCompressed) :
    header.imageLength + header.holeLength = blockSize ↔ header.imageLength ≤ blockSize := by
  have hhole := h.holeLength
  rw [XLogRecordBlockImageHeader.isCompressed] at hplain
  rw [holeLengthOf, if_neg hplain] at hhole
  unfold blockSize at *
  omega

theorem dataLength_of_valid {header : XLogRecordBlockHeader} {last : Option RelFileNode} {maxReadBlockID : ℤ}
    (h : header.Valid last maxReadBlockID) : (if header.hasData then header.dataLength else 0) = header.dataLength := by
  have hdata := h.hasData
  split_ifs with hflag
  · rfl
  · rw [Bool.eq_false_of_not_eq_true hflag] at hdata
    by_contra hne
    simp [Ne.symm hne] at hdata

/-- What the parser reads behind the header part is the announced data, for the last announced main data. -/
theorem HasBody.lengths (h : HasEntries data entries) (hbody : HasBody data entries record) :
    (record.blocks.map fun block => block.image.length).sum + (record.blocks.map fun block => block.data.length).sum =
      ((blockHeaders entries).map fun header => header.dataLength + header.imageLength).sum ∧
    record.mainData.length = (mainDataLens entries).getLastD 0 := by
  have hheaders : record.blocks.map XLogRecordBlock.header = blockHeaders entries :=
    hbody.headers.trans (foldl_add_blocks _ _)
  have hvalid := valid_of_admitsAll h.admitted
  refine ⟨?_, hbody.mainData.trans (hbody.mainDataLen.trans (foldl_add_mainDataLen _ _))⟩
  rw [← hheaders, map_map, ← sum_map_add]
  refine congrArg sum (map_congr_left fun block hblock => ?_)
  obtain ⟨last, maxReadBlockID, hheader⟩ := hvalid block.header (hheaders ▸ mem_map_of_mem hblock)
  rw [(hbody.filled block hblock).image, (hbody.filled block hblock).data, dataLength_of_valid hheader, Nat.add_comm]
  rfl

/-- An accepted record accounts for all its bytes exactly if its main data is announced once and its images fit. -/
theorem record_accounted_iff (h : parseXLogRecordFromBytes data = .ok record) :
    (∃ entries, HasEntries data entries) ∧ ∀ entries, HasEntries data entries →
      (Accounted data entries record ↔ AnnouncedOnce entries ∧ ImagesFit entries) := by
  refine ⟨exists_hasEntries h, fun entries hentries => ?_⟩
  have hbody := (parseXLogRecordFromBytes_iff hentries).mp h
  obtain ⟨hblocks, hmain⟩ := hbody.lengths hentries
  have htotal := hentries.total
  rw [announcedBy_eq] at htotal
  have hheaders : record.blocks.map XLogRecordBlock.header = blockHeaders entries :=
    hbody.headers.trans (foldl_add_blocks _ _)
  have hholes : (∀ block ∈ record.blocks, block.header.hasImage → ¬ block.header.imageHeader.isCompressed →
      block.image.length + block.header.imageHeader.holeLength = blockSize) ↔ ImagesFit entries := by
    rw [ImagesFit, ← hheaders, forall_mem_map]
    refine forall₂_congr fun block hblock => forall_congr' fun himage => forall_congr' fun hplain => ?_
    obtain ⟨last, maxReadBlockID, hvalid⟩ :=
      valid_of_admitsAll hentries.admitted block.header (hheaders ▸ mem_map_of_mem hblock)
    rw [(hbody.filled block hblock).image, XLogRecordBlockHeader.imageLength, if_pos himage]
    exact holeLength_add_iff (hvalid.image himage) hplain
  have honce : AnnouncedOnce entries ↔ (mainDataLens entries).sum = (mainDataLens entries).getLastD 0 :=
    (sum_eq_getLastD_iff _).symm
  rw [honce, ← hholes]
  constructor
  · intro haccounted
    have htotal' := haccounted.total
    rw [hbody.header] at htotal'
    exact ⟨by omega, haccounted.holes⟩
  · rintro ⟨hsum, hfit⟩
    refine ⟨?_, hfit, hbody.slices⟩
    rw [hbody.header]
    omega

/-- A record of the resource manager 0, with all other fields zero. -/
def plainRecord (entries : List HeaderEntry) (body : Bytes) : Bytes :=
  leBytes 4 (xLogRecordHeaderSize + (encodeEntries entries).length + body.length) ++ replicate 20 0 ++
    encodeEntries entries ++ body

theorem plain_hasEntries : HasEntries (plainRecord [.dataShort 3] [1, 2, 3]) [.dataShort 3] where
  size := by decide
  consistent := by decide
  admitted := ⟨show 3 < 256 ^ 1 by decide, trivial⟩
  bytes := ⟨[1, 2, 3], by decide⟩
  total := by decide

theorem plain_parses : parseXLogRecordFromBytes (plainRecord [.dataShort 3] [1, 2, 3]) =
    .ok ⟨⟨29, 0, 0, 0, 0, 0⟩, 3, 0, [], [1, 2, 3]⟩ :=
  (parseXLogRecordFromBytes_iff plain_hasEntries).mpr
    ⟨by decide, rfl, rfl, rfl, forall_mem_nil _, rfl, ⟨[], by decide⟩⟩

theorem record_accounted_plain : Accounted (plainRecord [.dataShort 3] [1, 2, 3]) [.dataShort 3]
    ⟨⟨29, 0, 0, 0, 0, 0⟩, 3, 0, [], [1, 2, 3]⟩ :=
  ((record_accounted_iff plain_parses).2 _ plain_hasEntries).mpr ⟨by decide, by decide⟩

theorem announcedTwice_hasEntries :
    HasEntries (plainRecord [.dataShort 5, .dataShort 3] [1, 2, 3, 4, 5, 6, 7, 8]) [.dataShort 5, .dataShort 3] where
  size := by decide
  consistent := by decide
  admitted := ⟨show 5 < 256 ^ 1 by decide, show 3 < 256 ^ 1 by decide, trivial⟩
  bytes := ⟨[1, 2, 3, 4, 5, 6, 7, 8], by decide⟩
  total := by decide

/-- The main data is announced with five bytes and then with three: the last five bytes of the record are lost. -/
theorem announcedTwice_unaccounted :
    HasEntries (plainRecord [.dataShort 5, .dataShort 3] [1, 2, 3, 4, 5, 6, 7, 8]) [.dataShort 5, .dataShort 3] ∧
    parseXLogRecordFromBytes (plainRecord [.dataShort 5, .dataShort 3] [1, 2, 3, 4, 5, 6, 7, 8]) =
      .ok ⟨⟨36, 0, 0, 0, 0, 0⟩, 3, 0, [], [1, 2, 3]⟩ ∧
    ¬ Accounted (plainRecord [.dataShort 5, .dataShort 3] [1, 2, 3, 4, 5, 6, 7, 8]) [.dataShort 5, .dataShort 3]
      ⟨⟨36, 0, 0, 0, 0, 0⟩, 3, 0, [], [1, 2, 3]⟩ := by
  refine ⟨announcedTwice_hasEntries, (parseXLogRecordFromBytes_iff announcedTwice_hasEntries).mpr
    ⟨by decide, rfl, rfl, rfl, forall_mem_nil _, rfl, ⟨[4, 5, 6, 7, 8], by decide⟩⟩, fun haccounted => ?_⟩
  have htotal := haccounted.total
  revert htotal
  decide

end Account

end WalG.XLog
