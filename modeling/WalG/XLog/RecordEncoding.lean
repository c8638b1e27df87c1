import WalG.XLog.PgRecord

/-! # Parsing the records that PostgreSQL writes

The header entries and the body of an encoded record are those that the parser looks for, so it
returns the record.
-/
namespace WalG.XLog
open Foundation PageFile List

section Blocks

theorem hasFlag_imageInfoOf (hasHole isCompressed apply : Bool) :
    hasFlag (imageInfoOf hasHole isCompressed apply) 0x01 = hasHole ∧
    hasFlag (imageInfoOf hasHole isCompressed apply) 0x02 = isCompressed ∧
    imageInfoOf hasHole isCompressed apply < 256 ^ 1 := by
  revert hasHole isCompressed apply
  decide

namespace PgImage

variable {image : PgImage}

theorem hasHole_header : image.header.hasHole = image.form.hasHole := (hasFlag_imageInfoOf ..).1

theorem isCompressed_header : image.header.isCompressed = image.form.isCompressed := (hasFlag_imageInfoOf ..).2.1

theorem header_encode : image.header.encode = image.encodeHeader := by
  have hstores : storesHoleLength image.header.info = (image.form.isCompressed && image.form.hasHole) :=
    congrArg₂ and isCompressed_header hasHole_header
  rw [XLogRecordBlockImageHeader.encode, hstores, encodeHeader, header, holeLength]
  cases image.form <;> rfl

theorem holeLengthOf_header : holeLengthOf image.header.info image.header.imageLength image.header.holeLength =
    if image.form.isCompressed then if image.form.hasHole then image.holeLength else 0
    else (blockSize + 2 ^ 16 - image.bytes.length) % 2 ^ 16 := by
  rw [← isCompressed_header, ← hasHole_header]
  rfl

theorem WellFormed.bytes_lt (h : image.WellFormed) : image.bytes.length < 2 ^ 16 := by
  unfold WellFormed blockSize at h
  cases hform : image.form <;> simp only [hform] at h <;> omega

theorem holeLength_lt : image.holeLength < 2 ^ 16 := by
  unfold holeLength
  cases image.form with
  | plain => exact Nat.two_pow_pos 16
  | hole offset =>
    unfold blockSize
    dsimp only
    omega
  | compressed => exact Nat.two_pow_pos 16
  | compressedHole offset length => exact length.toNat_lt

theorem holeOffset_lt : image.form.holeOffset < 2 ^ 16 := by
  cases image.form with
  | plain => decide
  | hole offset => exact offset.toNat_lt
  | compressed => decide
  | compressedHole offset length => exact offset.toNat_lt

theorem WellFormed.header_valid (h : image.WellFormed) : image.header.Valid where
  imageLength_lt := h.bytes_lt
  holeOffset_lt := holeOffset_lt
  info_lt := (hasFlag_imageInfoOf ..).2.2
  holeLength_lt := holeLength_lt
  holeLength := by
    rw [holeLengthOf_header]
    change image.holeLength = _
    unfold WellFormed blockSize at h
    unfold holeLength blockSize
    cases hform : image.form with
    | plain =>
      simp only [hform] at h
      simp only [PgImageForm.isCompressed, Bool.false_eq_true, if_false]
      omega
    | hole offset =>
      simp only [hform] at h
      simp only [PgImageForm.isCompressed, Bool.false_eq_true, if_false]
      omega
    | compressed => rfl
    | compressedHole offset length => rfl
  consistent := by
    rw [XLogRecordBlockImageHeader.checkConsistency, hasHole_header, isCompressed_header]
    unfold WellFormed at h
    unfold header holeLength
    cases hform : image.form with
    | plain => simp_all [PgImageForm.hasHole, PgImageForm.isCompressed, PgImageForm.holeOffset]
    | hole offset =>
      simp_all [PgImageForm.hasHole, PgImageForm.isCompressed, PgImageForm.holeOffset]
      omega
    | compressed => simp_all [PgImageForm.hasHole, PgImageForm.isCompressed, PgImageForm.holeOffset]
    | compressedHole offset length =>
      simp_all [PgImageForm.hasHole, PgImageForm.isCompressed, PgImageForm.holeOffset]
      omega

end PgImage

theorem hasFlag_forkFlagsOf (fork : Fin 16) (hasImage hasData willInit sameRel : Bool) :
    hasFlag (forkFlagsOf fork hasImage hasData willInit sameRel) 0x10 = hasImage ∧
    hasFlag (forkFlagsOf fork hasImage hasData willInit sameRel) 0x20 = hasData ∧
    hasFlag (forkFlagsOf fork hasImage hasData willInit sameRel) 0x80 = sameRel ∧
    forkFlagsOf fork hasImage hasData willInit sameRel < 256 ^ 1 := by
  revert fork hasImage hasData willInit sameRel
  decide

variable {block : PgBlock} {last : Option RelFileNode}

theorem PgBlock.hasImage_parsed : (block.parsedAfter last).header.hasImage = block.image.isSome :=
  (hasFlag_forkFlagsOf ..).1

theorem PgBlock.hasData_parsed : (block.parsedAfter last).header.hasData = !block.data.isEmpty :=
  (hasFlag_forkFlagsOf ..).2.1

theorem PgBlock.hasSameRel_parsed : (block.parsedAfter last).header.hasSameRel = block.relation.isNone :=
  (hasFlag_forkFlagsOf ..).2.2.1

theorem PgBlock.parsed_encode : (block.parsedAfter last).header.encode = block.encodeHeader := by
  rw [XLogRecordBlockHeader.encode, hasImage_parsed, hasSameRel_parsed, encodeHeader, encodeBlockLocation]
  obtain ⟨id, fork, willInit, relation, blockNo, image, data⟩ := block
  cases image <;> cases relation <;> simp [parsedAfter, relationAfter, PgImage.header_encode]

theorem PgBlock.WellFormed.parsed_valid {maxReadBlockID : ℤ} (h : block.WellFormed)
    (hrel : block.relation.isSome ∨ last.isSome) (hid : maxReadBlockID < block.id) :
    (block.parsedAfter last).header.Valid last maxReadBlockID where
  blockID_le := Nat.lt_succ_iff.mp block.id.isLt
  blockID_gt := hid
  forkFlags_lt := (hasFlag_forkFlagsOf ..).2.2.2
  dataLength_lt := h.data
  hasData := by
    rw [PgBlock.hasData_parsed]
    change (!block.data.isEmpty) = decide (block.data.length ≠ 0)
    cases block.data <;> rfl
  image himage := by
    rw [PgBlock.hasImage_parsed, Option.isSome_iff_exists] at himage
    obtain ⟨image, himage⟩ := himage
    change (block.image.elim _ PgImage.header).Valid
    rw [himage]
    exact (h.image image himage).header_valid
  noImage himage := by
    rw [PgBlock.hasImage_parsed, Option.not_isSome_iff_eq_none] at himage
    change block.image.elim _ PgImage.header = _
    rw [himage]
    rfl
  sameRel hsame := by
    rw [PgBlock.hasSameRel_parsed, Option.isNone_iff_eq_none] at hsame
    rw [hsame] at hrel
    obtain ⟨node, rfl⟩ := Option.isSome_iff_exists.mp (hrel.resolve_left (by decide))
    change some node = some (block.relationAfter (some node))
    rw [PgBlock.relationAfter, hsame]
    rfl

theorem PgBlock.parsed_filled : (block.parsedAfter last).Filled where
  image := by
    rw [XLogRecordBlockHeader.imageLength, hasImage_parsed]
    change block.imageBytes.length = if _ then (block.image.elim _ PgImage.header).imageLength else 0
    rw [imageBytes]
    cases block.image <;> rfl
  data := by
    rw [hasData_parsed]
    change block.data.length = if _ then block.data.length else 0
    cases block.data <;> rfl

/-- The blocks can be read behind those of lower ids, if one of them or the first block has a relation. -/
theorem admitsAll_blocks {blocks : List PgBlock} {part : HeaderPart} (rest : List HeaderEntry)
    (hids : blocks.Pairwise fun block next => block.id < next.id)
    (hlow : ∀ block ∈ blocks, part.maxReadBlockID < block.id)
    (hrel : part.lastRelFileNode.isSome ∨ ∀ block ∈ blocks.head?, block.relation.isSome)
    (hblocks : ∀ block ∈ blocks, block.WellFormed) (hrest : ∀ part : HeaderPart, part.AdmitsAll rest) :
    part.AdmitsAll ((parsedBlocks part.lastRelFileNode blocks).map (fun block => .block block.header) ++ rest) := by
  induction blocks generalizing part with
  | nil => exact hrest part
  | cons block blocks ih =>
    rw [forall_mem_cons] at hblocks hlow
    rw [pairwise_cons] at hids
    have hrel' : block.relation.isSome ∨ part.lastRelFileNode.isSome :=
      hrel.symm.imp_left fun h => h block rfl
    refine ⟨hblocks.1.parsed_valid hrel' hlow.1, ih hids.2 (fun next hnext => ?_) (.inl rfl) hblocks.2⟩
    exact Int.ofNat_lt.mpr (hids.1 next hnext)

theorem parsedBlocks_flatMap_encode (blocks : List PgBlock) (last : Option RelFileNode) :
    encodeEntries ((parsedBlocks last blocks).map fun block => .block block.header) =
      blocks.flatMap PgBlock.encodeHeader := by
  induction blocks generalizing last with
  | nil => rfl
  | cons block blocks ih =>
    rw [flatMap_cons, ← ih (some (block.relationAfter last)), ← PgBlock.parsed_encode]
    rfl

theorem parsedBlocks_flatMap_payload (blocks : List PgBlock) (last : Option RelFileNode) :
    (parsedBlocks last blocks).flatMap XLogRecordBlock.payload =
      blocks.flatMap fun block => block.imageBytes ++ block.data := by
  induction blocks generalizing last with
  | nil => rfl
  | cons block blocks ih =>
    rw [flatMap_cons, ← ih (some (block.relationAfter last))]
    rfl

theorem parsedBlocks_announced (blocks : List PgBlock) (last : Option RelFileNode) :
    (((parsedBlocks last blocks).map XLogRecordBlock.header).map fun header =>
      header.dataLength + header.imageLength).sum =
      (blocks.flatMap fun block => block.imageBytes ++ block.data).length := by
  induction blocks generalizing last with
  | nil => rfl
  | cons block blocks ih =>
    have himage : (block.parsedAfter last).header.imageLength = block.imageBytes.length :=
      PgBlock.parsed_filled.image.symm
    have hdata : (block.parsedAfter last).header.dataLength = block.data.length := rfl
    rw [parsedBlocks, map_cons, map_cons, sum_cons, ih, himage, hdata, flatMap_cons, length_append, length_append]
    omega

theorem parsedBlocks_filled (blocks : List PgBlock) (last : Option RelFileNode) :
    ∀ block ∈ parsedBlocks last blocks, block.Filled := by
  induction blocks generalizing last with
  | nil => exact forall_mem_nil _
  | cons block blocks ih => exact forall_mem_cons.mpr ⟨PgBlock.parsed_filled, ih _⟩

end Blocks

namespace PgRecord

variable (record : PgRecord)

/-- The entries of the header part behind the blocks. -/
def closingEntries : List HeaderEntry :=
  (record.origin.elim [] fun origin => [.origin origin.toNat]) ++
    if record.mainData.length = 0 then []
    else if record.mainData.length ≤ 255 then [.dataShort record.mainData.length]
    else [.dataLong record.mainData.length]

def entries : List HeaderEntry :=
  (parsedBlocks none record.blocks).map (fun block => .block block.header) ++ record.closingEntries

theorem encodeEntries_append (entries entries' : List HeaderEntry) :
    encodeEntries (entries ++ entries') = encodeEntries entries ++ encodeEntries entries' :=
  flatMap_append

theorem encodeEntries_closingEntries :
    encodeEntries record.closingEntries = record.encodeOrigin ++ record.encodeMainDataHeader := by
  rw [closingEntries, encodeEntries_append, encodeOrigin, encodeMainDataHeader]
  congr 1
  · cases record.origin with
    | none => rfl
    | some origin => exact append_nil _
  · split_ifs
    · rfl
    · exact append_nil _
    · exact append_nil _

theorem encodeEntries_entries : encodeEntries record.entries = record.encodeHeaderPart := by
  rw [entries, encodeEntries_append, parsedBlocks_flatMap_encode, encodeEntries_closingEntries, encodeHeaderPart,
    append_assoc]

theorem mainDataLens_blocks (blocks : List XLogRecordBlock) (rest : List HeaderEntry) :
    mainDataLens (blocks.map (fun block => .block block.header) ++ rest) = mainDataLens rest := by
  induction blocks with
  | nil => rfl
  | cons block blocks ih => exact ih

theorem blockHeaders_blocks (blocks : List XLogRecordBlock) (rest : List HeaderEntry) :
    blockHeaders (blocks.map (fun block => .block block.header) ++ rest) =
      blocks.map XLogRecordBlock.header ++ blockHeaders rest := by
  induction blocks with
  | nil => rfl
  | cons block blocks ih => exact congrArg _ ih

theorem foldl_add_blocks_origin (blocks : List XLogRecordBlock) (part : HeaderPart) :
    ((blocks.map fun block => HeaderEntry.block block.header).foldl HeaderPart.add part).origin = part.origin := by
  induction blocks generalizing part with
  | nil => rfl
  | cons block blocks ih => exact ih _

theorem mainDataLens_entries :
    mainDataLens record.entries = if record.mainData.length = 0 then [] else [record.mainData.length] := by
  rw [entries, mainDataLens_blocks, closingEntries]
  cases record.origin <;> split_ifs <;> rfl

theorem blockHeaders_entries :
    blockHeaders record.entries = (parsedBlocks none record.blocks).map XLogRecordBlock.header := by
  have hclosing : blockHeaders record.closingEntries = [] := by
    rw [closingEntries]
    cases record.origin <;> split_ifs <;> rfl
  rw [entries, blockHeaders_blocks, hclosing, append_nil]

theorem collected_origin (data : Bytes) :
    (collected data record.entries).origin = record.origin.elim 0 UInt16.toNat := by
  have hblocks := foldl_add_blocks_origin (parsedBlocks none record.blocks) (.start ⟨.ofBytes data, 0⟩)
  rw [collected, entries, foldl_append, closingEntries]
  cases record.origin <;> split_ifs
  all_goals first | rfl | exact hblocks

theorem announcedBy_entries : announcedBy record.entries = record.encodeBody.length := by
  rw [announcedBy_eq, mainDataLens_entries, blockHeaders_entries, parsedBlocks_announced, encodeBody, length_append]
  split_ifs with hzero
  · rw [hzero, sum_nil, Nat.zero_add, Nat.add_zero]
  · rw [sum_singleton, Nat.add_comm]

theorem admitsAll_entries (h : record.WellFormed) (r : ShrinkableReader) :
    (HeaderPart.start r).AdmitsAll record.entries := by
  have hbody : record.mainData.length < 256 ^ 4 := by
    have htotal := h.total
    rw [totalLength, encodeBody, length_append] at htotal
    omega
  refine admitsAll_blocks _ h.ids (fun block _ => ?_) (.inr h.relation) h.blocks fun part => ?_
  · exact lt_of_lt_of_le (show (-1 : ℤ) < 0 by decide) (Int.natCast_nonneg _)
  · rw [closingEntries]
    cases record.origin with
    | none =>
      split_ifs with hzero hshort
      · trivial
      · exact ⟨Nat.lt_succ_of_le hshort, trivial⟩
      · exact ⟨hbody, trivial⟩
    | some origin =>
      refine ⟨origin.toNat_lt, ?_⟩
      split_ifs with hzero hshort
      · trivial
      · exact ⟨Nat.lt_succ_of_le hshort, trivial⟩
      · exact ⟨hbody, trivial⟩

theorem headerOf_encode (h : record.WellFormed) : headerOf record.encode = record.parsed.header := by
  have htotal : leNat (leBytes 4 record.totalLength) = record.totalLength := leNat_leBytes_of_lt h.total
  have hxact : leNat (leBytes 4 record.xactID.toNat) = record.xactID.toNat := leNat_leBytes_of_lt record.xactID.toNat_lt
  have hprev : leNat (leBytes 8 record.prevRecordPtr.toNat) = record.prevRecordPtr.toNat :=
    leNat_leBytes_of_lt record.prevRecordPtr.toNat_lt
  have hinfo : leNat (leBytes 1 record.info.toNat) = record.info.toNat := leNat_leBytes_of_lt record.info.toNat_lt
  have hmanager : leNat (leBytes 1 record.resourceManagerID) = record.resourceManagerID :=
    leNat_leBytes_of_lt (record.resourceManagerID.isLt.trans (by decide))
  have hcrc : leNat (leBytes 4 record.crc32Hash.toNat) = record.crc32Hash.toNat :=
    leNat_leBytes_of_lt record.crc32Hash.toNat_lt
  rw [headerOf, parsed, XLogRecordHeader.mk.injEq]
  exact ⟨htotal, hxact, hprev, hinfo, hmanager, hcrc⟩

theorem drop_encode : record.encode.drop xLogRecordHeaderSize = record.encodeHeaderPart ++ record.encodeBody := by
  rw [encode, append_assoc]
  exact drop_left' (by simp only [length_append, leBytes_length]; rfl)

theorem hasEntries_encode (h : record.WellFormed) : HasEntries record.encode record.entries where
  size := by
    simp only [encode, length_append, leBytes_length, length_cons, length_nil, xLogRecordHeaderSize]
    omega
  consistent := by
    rw [headerOf_encode record h, XLogRecordHeader.checkConsistency, if_neg, if_neg]
    · exact not_le.mpr record.resourceManagerID.isLt
    · exact not_lt.mpr (Nat.le_add_right_of_le (Nat.le_add_right _ _))
  admitted := record.admitsAll_entries h _
  bytes := by
    rw [record.encodeEntries_entries, record.drop_encode]
    exact prefix_append _ _
  total := by
    rw [headerOf_encode record h, record.encodeEntries_entries, record.announcedBy_entries]
    rfl

theorem hasBody_encode (h : record.WellFormed) : HasBody record.encode record.entries record.parsed where
  header := (headerOf_encode record h).symm
  mainDataLen := by
    rw [collected, foldl_add_mainDataLen, mainDataLens_entries]
    split_ifs with hzero
    · exact hzero
    · rfl
  origin := (record.collected_origin _).symm
  headers := by
    rw [collected, foldl_add_blocks, blockHeaders_entries]
    rfl
  filled := parsedBlocks_filled _ _
  mainData := rfl
  slices := by
    change (parsedBlocks none record.blocks).flatMap XLogRecordBlock.payload ++ record.mainData <+: _
    rw [parsedBlocks_flatMap_payload, ← drop_drop, record.drop_encode, record.encodeEntries_entries, drop_left]
    exact prefix_rfl

end PgRecord

/-- A block without a relation of its own has that of the block before it. -/
theorem parsedBlocks_sameRel {blocks : List PgBlock} {last : Option RelFileNode}
    {before after : List XLogRecordBlock} {block next : XLogRecordBlock}
    (h : parsedBlocks last blocks = before ++ block :: next :: after) (hsame : next.header.hasSameRel) :
    next.header.blockLocation.relationFileNode = block.header.blockLocation.relationFileNode := by
  induction blocks generalizing last before with
  | nil => cases before <;> cases h
  | cons first blocks ih =>
    cases before with
    | cons b before => exact ih (cons.inj h).2
    | nil =>
      obtain ⟨rfl, htail⟩ := cons.inj h
      cases blocks with
      | nil => cases htail
      | cons second blocks =>
        cases htail
        rw [PgBlock.hasSameRel_parsed, Option.isNone_iff_eq_none] at hsame
        change second.relationAfter _ = first.relationAfter last
        rw [PgBlock.relationAfter, hsame]
        rfl

/-- Parsing inverts the encoding, and a block of the same relation has the relation of the block before it. -/
theorem parse_encode (record : PgRecord) (h : record.WellFormed) :
    parseXLogRecordFromBytes record.encode = .ok record.parsed ∧
      ∀ before block next after, record.parsed.blocks = before ++ block :: next :: after → next.header.hasSameRel →
        next.header.blockLocation.relationFileNode = block.header.blockLocation.relationFileNode :=
  ⟨(parseXLogRecordFromBytes_iff (record.hasEntries_encode h)).mpr (record.hasBody_encode h),
    fun _ _ _ _ hblocks hsame => parsedBlocks_sameRel hblocks hsame⟩

/-- Two blocks of one relation, the second with a compressed image of a page with a hole. -/
def twoBlocks : PgRecord where
  xactID := 7
  prevRecordPtr := 4096
  info := 0
  resourceManagerID := 10
  crc32Hash := 9
  blocks :=
    [⟨0, 0, false, some ⟨1663, 13000, 16384⟩, 5, none, [1, 2]⟩,
      ⟨3, 0, false, none, 6, some ⟨[3, 4, 5], .compressedHole 40 8000, true⟩, []⟩]
  origin := some 1
  mainData := [6, 7, 8]

theorem twoBlocks_wellFormed : twoBlocks.WellFormed where
  ids := by decide
  relation := by decide
  blocks := by
    refine forall_mem_cons.mpr ⟨⟨nofun, by decide⟩, forall_mem_singleton.mpr ⟨?_, by decide⟩⟩
    rintro image ⟨⟩
    exact ⟨by decide, by decide, by decide, by decide⟩
  total := by decide

theorem parse_encode_twoBlocks : parseXLogRecordFromBytes twoBlocks.encode = .ok twoBlocks.parsed :=
  (parse_encode twoBlocks twoBlocks_wellFormed).1

end WalG.XLog
