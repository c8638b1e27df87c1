import WalG.XLog.Record

/-! # The bytes of a header part

Each function that reads the header part takes the bytes of what it returns off the reader, and
holds back the data that it announces.
-/
namespace WalG.XLog
open Foundation PageFile List

namespace ShrinkableReader

/-- The bytes are taken off the reader, and the data that is held back grows. -/
structure Takes (r : ShrinkableReader) (bytes : Bytes) (held : ℕ) (r' : ShrinkableReader) : Prop where
  data : r.innerReader.data = bytes ++ r'.innerReader.data
  ending : r'.innerReader.ending = r.innerReader.ending
  remained : r.dataRemained = bytes.length + held + r'.dataRemained

variable {r r₁ r' : ShrinkableReader} {bytes bytes' : Bytes} {held held' : ℕ}

theorem Takes.refl (r : ShrinkableReader) : r.Takes [] 0 r := ⟨rfl, rfl, by simp⟩

theorem Takes.eq (h : r.Takes [] 0 r') : r' = r := by
  obtain ⟨⟨data, ending⟩, remained⟩ := r
  obtain ⟨⟨data', ending'⟩, remained'⟩ := r'
  obtain ⟨hdata, hending, hremained⟩ := h
  simp_all

theorem Takes.trans (h : r.Takes bytes held r₁) (h' : r₁.Takes bytes' held' r') :
    r.Takes (bytes ++ bytes') (held + held') r' where
  data := by rw [h.data, h'.data, append_assoc]
  ending := h'.ending.trans h.ending
  remained := by
    have hremained := h.remained
    have hremained' := h'.remained
    rw [length_append]
    omega

theorem Takes.split (h : r.Takes (bytes ++ bytes') (held + held') r') :
    ∃ r₁, r.Takes bytes held r₁ ∧ r₁.Takes bytes' held' r' := by
  have hremained := h.remained
  rw [length_append] at hremained
  refine ⟨⟨⟨bytes' ++ r'.innerReader.data, r.innerReader.ending⟩, bytes'.length + held' + r'.dataRemained⟩,
    ⟨by rw [h.data, append_assoc], rfl, ?_⟩, ⟨rfl, h.ending, rfl⟩⟩
  dsimp only
  omega

theorem Takes.split_zero (h : r.Takes (bytes ++ bytes') 0 r') : ∃ r₁, r.Takes bytes 0 r₁ ∧ r₁.Takes bytes' 0 r' :=
  Takes.split (show r.Takes (bytes ++ bytes') (0 + 0) r' from h)

theorem Takes.hold (h : r.Takes bytes 0 r₁) (h' : r₁.Takes [] held r') : r.Takes bytes held r' := by
  have h'' := h.trans h'
  rwa [append_nil, Nat.zero_add] at h''

theorem Takes.split_held (h : r.Takes bytes held r') : ∃ r₁, r.Takes bytes 0 r₁ ∧ r₁.Takes [] held r' := by
  rw [← append_nil bytes, ← Nat.zero_add held] at h
  obtain ⟨r₁, htakes, hheld⟩ := h.split
  exact ⟨r₁, htakes, hheld⟩

theorem readField_iff {w value : ℕ} :
    r.readField w = .ok (value, r') ↔ value < 256 ^ w ∧ r.Takes (leBytes w value) 0 r' := by
  constructor
  · intro h
    obtain ⟨hle, hremained⟩ := readField_dataRemained h
    rw [readField, if_pos hle] at h
    split at h
    · cases h
    · rename_i hread
      cases h
      obtain ⟨hlt, hdata, hending⟩ := Reader.readLE_iff.mp hread
      exact ⟨hlt, hdata, hending, by rw [leBytes_length, Nat.add_zero]; dsimp only; omega⟩
  · rintro ⟨hlt, hdata, hending, hremained⟩
    rw [leBytes_length, Nat.add_zero] at hremained
    rw [readField, if_pos (by omega), Reader.readLE_iff.mpr ⟨hlt, hdata, hending⟩, hremained, Nat.add_sub_cancel_left]

theorem shrink_iff {length : ℕ} : r.shrink length = .ok r' ↔ r.Takes [] length r' := by
  constructor
  · intro h
    rw [shrink] at h
    split_ifs at h with hlt
    cases h
    exact ⟨rfl, rfl, by rw [length_nil, Nat.zero_add]; dsimp only; omega⟩
  · rintro ⟨hdata, hending, hremained⟩
    rw [length_nil, Nat.zero_add] at hremained
    rw [shrink, if_neg (by omega), hremained, Nat.add_sub_cancel_left]
    obtain ⟨⟨data, ending⟩, remained⟩ := r
    obtain ⟨⟨data', ending'⟩, remained'⟩ := r'
    obtain rfl : data = data' := hdata
    obtain rfl : ending' = ending := hending
    rfl

end ShrinkableReader

section ImageHeader

open ShrinkableReader

/-- The length of the hole: stored, absent, or what the image lacks in 16 bits. -/
def holeLengthOf (info imageLength stored : ℕ) : ℕ :=
  if hasFlag info 0x02 then if hasFlag info 0x01 then stored else 0
  else (blockSize + 2 ^ 16 - imageLength) % 2 ^ 16

def storesHoleLength (info : ℕ) : Bool := hasFlag info 0x02 && hasFlag info 0x01

namespace XLogRecordBlockImageHeader

def encode (h : XLogRecordBlockImageHeader) : Bytes :=
  leBytes 2 h.imageLength ++ leBytes 2 h.holeOffset ++ leBytes 1 h.info ++
    if storesHoleLength h.info then leBytes 2 h.holeLength else []

structure Valid (h : XLogRecordBlockImageHeader) : Prop where
  imageLength_lt : h.imageLength < 256 ^ 2
  holeOffset_lt : h.holeOffset < 256 ^ 2
  info_lt : h.info < 256 ^ 1
  holeLength_lt : h.holeLength < 256 ^ 2
  holeLength : h.holeLength = holeLengthOf h.info h.imageLength h.holeLength
  consistent : h.checkConsistency = .ok ()

end XLogRecordBlockImageHeader

theorem readImageHoleLength_iff {info imageLength holeLength : ℕ} {r r' : ShrinkableReader} :
    readImageHoleLength info imageLength r = .ok (holeLength, r') ↔ holeLength < 256 ^ 2 ∧
      holeLength = holeLengthOf info imageLength holeLength ∧
      r.Takes (if storesHoleLength info then leBytes 2 holeLength else []) 0 r' := by
  unfold readImageHoleLength holeLengthOf storesHoleLength
  cases hcompressed : hasFlag info 0x02 with
  | false =>
    simp only [Bool.false_eq_true, if_false, Bool.false_and, Except.ok.injEq, Prod.mk.injEq]
    constructor
    · rintro ⟨rfl, rfl⟩
      exact ⟨Nat.mod_lt _ (by decide), rfl, .refl _⟩
    · rintro ⟨-, rfl, htakes⟩
      exact ⟨rfl, htakes.eq.symm⟩
  | true =>
    cases hhole : hasFlag info 0x01 with
    | false =>
      simp only [Bool.false_eq_true, if_false, if_true, Bool.and_false, Except.ok.injEq, Prod.mk.injEq]
      constructor
      · rintro ⟨rfl, rfl⟩
        exact ⟨by decide, rfl, .refl _⟩
      · rintro ⟨-, rfl, htakes⟩
        exact ⟨rfl, htakes.eq.symm⟩
    | true =>
      simp only [if_true, Bool.and_self, true_and]
      exact readField_iff

theorem readXLogRecordBlockImageHeader_iff {r r' : ShrinkableReader} {header : XLogRecordBlockImageHeader} :
    readXLogRecordBlockImageHeader r = .ok (header, r') ↔ header.Valid ∧ r.Takes header.encode 0 r' := by
  constructor
  · intro h
    obtain ⟨⟨imageLength, r₁⟩, h₁, h⟩ := bind_ok h
    obtain ⟨⟨holeOffset, r₂⟩, h₂, h⟩ := bind_ok h
    obtain ⟨⟨info, r₃⟩, h₃, h⟩ := bind_ok h
    obtain ⟨⟨holeLength, r₄⟩, h₄, h⟩ := bind_ok h
    obtain ⟨_, hconsistent, h⟩ := bind_ok h
    cases h
    obtain ⟨hlt₁, htakes₁⟩ := readField_iff.mp h₁
    obtain ⟨hlt₂, htakes₂⟩ := readField_iff.mp h₂
    obtain ⟨hlt₃, htakes₃⟩ := readField_iff.mp h₃
    obtain ⟨hlt₄, hhole, htakes₄⟩ := readImageHoleLength_iff.mp h₄
    exact ⟨⟨hlt₁, hlt₂, hlt₃, hlt₄, hhole, hconsistent⟩, ((htakes₁.trans htakes₂).trans htakes₃).trans htakes₄⟩
  · rintro ⟨hvalid, htakes⟩
    obtain ⟨r₃, htakes, htakes₄⟩ := htakes.split_zero
    obtain ⟨r₂, htakes, htakes₃⟩ := htakes.split_zero
    obtain ⟨r₁, htakes₁, htakes₂⟩ := htakes.split_zero
    refine bind_of_ok (readField_iff.mpr ⟨hvalid.imageLength_lt, htakes₁⟩) ?_
    refine bind_of_ok (readField_iff.mpr ⟨hvalid.holeOffset_lt, htakes₂⟩) ?_
    refine bind_of_ok (readField_iff.mpr ⟨hvalid.info_lt, htakes₃⟩) ?_
    refine bind_of_ok (readImageHoleLength_iff.mpr ⟨hvalid.holeLength_lt, hvalid.holeLength, htakes₄⟩) ?_
    exact bind_of_ok hvalid.consistent rfl

end ImageHeader

section BlockHeader

open ShrinkableReader

def encodeRelFileNode (node : RelFileNode) : Bytes :=
  leBytes 4 node.spcNode.toNat ++ leBytes 4 node.dbNode.toNat ++ leBytes 4 node.relNode.toNat

/-- A block of the same relation as the one before it has only its number. -/
def encodeBlockLocation (sameRel : Bool) (location : BlockLocation) : Bytes :=
  (if sameRel then [] else encodeRelFileNode location.relationFileNode) ++ leBytes 4 location.blockNo.toNat

theorem toNat_lt_pow (n : UInt32) : n.toNat < 256 ^ 4 := n.toNat_lt

theorem toNat_ofNat_of_lt {n : ℕ} (h : n < 256 ^ 4) : (UInt32.ofNat n).toNat = n := by
  rw [UInt32.toNat_ofNat']
  exact Nat.mod_eq_of_lt h

theorem readRelFileNode_iff {r r' : ShrinkableReader} {node : RelFileNode} :
    readRelFileNode r = .ok (node, r') ↔ r.Takes (encodeRelFileNode node) 0 r' := by
  constructor
  · intro h
    obtain ⟨⟨spcNode, r₁⟩, h₁, h⟩ := bind_ok h
    obtain ⟨⟨dbNode, r₂⟩, h₂, h⟩ := bind_ok h
    obtain ⟨⟨relNode, r₃⟩, h₃, h⟩ := bind_ok h
    cases h
    obtain ⟨hlt₁, htakes₁⟩ := readField_iff.mp h₁
    obtain ⟨hlt₂, htakes₂⟩ := readField_iff.mp h₂
    obtain ⟨hlt₃, htakes₃⟩ := readField_iff.mp h₃
    simp only [encodeRelFileNode, toNat_ofNat_of_lt hlt₁, toNat_ofNat_of_lt hlt₂, toNat_ofNat_of_lt hlt₃]
    exact (htakes₁.trans htakes₂).trans htakes₃
  · intro htakes
    obtain ⟨r₂, htakes, htakes₃⟩ := htakes.split_zero
    obtain ⟨r₁, htakes₁, htakes₂⟩ := htakes.split_zero
    refine bind_of_ok (readField_iff.mpr ⟨toNat_lt_pow _, htakes₁⟩) ?_
    refine bind_of_ok (readField_iff.mpr ⟨toNat_lt_pow _, htakes₂⟩) ?_
    refine bind_of_ok (readField_iff.mpr ⟨toNat_lt_pow _, htakes₃⟩) ?_
    simp only [UInt32.ofNat_toNat]

theorem readRelFileNodeOf_iff {sameRel : Bool} {last : Option RelFileNode} {r r' : ShrinkableReader}
    {node : RelFileNode} : readRelFileNodeOf sameRel last r = .ok (node, r') ↔ (sameRel → last = some node) ∧
      r.Takes (if sameRel then [] else encodeRelFileNode node) 0 r' := by
  cases sameRel with
  | false =>
    simp only [readRelFileNodeOf, Bool.false_eq_true, if_false, false_implies, true_and]
    exact readRelFileNode_iff
  | true =>
    simp only [readRelFileNodeOf, if_true, true_implies]
    cases last with
    | none => simp
    | some node' =>
      simp only [Except.ok.injEq, Prod.mk.injEq, Option.some.injEq]
      refine and_congr_right fun _ => ⟨?_, fun htakes => htakes.eq.symm⟩
      rintro rfl
      exact .refl _

theorem readBlockLocation_iff {sameRel : Bool} {last : Option RelFileNode} {r r' : ShrinkableReader}
    {location : BlockLocation} : readBlockLocation sameRel last r = .ok (location, r') ↔
      (sameRel → last = some location.relationFileNode) ∧ r.Takes (encodeBlockLocation sameRel location) 0 r' := by
  constructor
  · intro h
    obtain ⟨⟨node, r₁⟩, h₁, h⟩ := bind_ok h
    obtain ⟨⟨blockNo, r₂⟩, h₂, h⟩ := bind_ok h
    cases h
    obtain ⟨hlast, htakes₁⟩ := readRelFileNodeOf_iff.mp h₁
    obtain ⟨hlt, htakes₂⟩ := readField_iff.mp h₂
    simp only [encodeBlockLocation, toNat_ofNat_of_lt hlt]
    exact ⟨hlast, htakes₁.trans htakes₂⟩
  · rintro ⟨hlast, htakes⟩
    obtain ⟨r₁, htakes₁, htakes₂⟩ := htakes.split_zero
    refine bind_of_ok (readRelFileNodeOf_iff.mpr ⟨hlast, htakes₁⟩) ?_
    refine bind_of_ok (readField_iff.mpr ⟨toNat_lt_pow _, htakes₂⟩) ?_
    simp only [UInt32.ofNat_toNat]

namespace XLogRecordBlockHeader

variable (h : XLogRecordBlockHeader)

/-- The length of the image that follows the header part. -/
def imageLength : ℕ := if h.hasImage then h.imageHeader.imageLength else 0

def encode : Bytes :=
  leBytes 1 h.blockID ++ (leBytes 1 h.forkFlags ++ leBytes 2 h.dataLength ++
    (if h.hasImage then h.imageHeader.encode else []) ++ encodeBlockLocation h.hasSameRel h.blockLocation)

structure Valid (last : Option RelFileNode) (maxReadBlockID : ℤ) (h : XLogRecordBlockHeader) : Prop where
  blockID_le : h.blockID ≤ xlrMaxBlockID
  blockID_gt : maxReadBlockID < h.blockID
  forkFlags_lt : h.forkFlags < 256 ^ 1
  dataLength_lt : h.dataLength < 256 ^ 2
  hasData : h.hasData = decide (h.dataLength ≠ 0)
  image : h.hasImage → h.imageHeader.Valid
  noImage : ¬ h.hasImage → h.imageHeader = ⟨0, 0, 0, 0⟩
  sameRel : h.hasSameRel → last = some h.blockLocation.relationFileNode

end XLogRecordBlockHeader

theorem readImageHeaderOf_iff {forkFlags : ℕ} {r r' : ShrinkableReader} {header : XLogRecordBlockImageHeader} :
    readImageHeaderOf forkFlags r = .ok (header, r') ↔ (hasFlag forkFlags 0x10 → header.Valid) ∧
      (¬ hasFlag forkFlags 0x10 → header = ⟨0, 0, 0, 0⟩) ∧
      r.Takes (if hasFlag forkFlags 0x10 then header.encode else [])
        (if hasFlag forkFlags 0x10 then header.imageLength else 0) r' := by
  cases hflag : hasFlag forkFlags 0x10 with
  | false =>
    simp only [readImageHeaderOf, hflag, Bool.false_eq_true, if_false, false_implies, true_and, not_false_eq_true,
      true_implies, Except.ok.injEq, Prod.mk.injEq]
    constructor
    · rintro ⟨rfl, rfl⟩
      exact ⟨rfl, .refl _⟩
    · rintro ⟨rfl, htakes⟩
      exact ⟨rfl, htakes.eq.symm⟩
  | true =>
    simp only [readImageHeaderOf, hflag, if_true, true_implies, not_true_eq_false, false_implies, true_and]
    constructor
    · intro h
      obtain ⟨⟨imageHeader, r₁⟩, h₁, h⟩ := bind_ok h
      obtain ⟨r₂, h₂, h⟩ := bind_ok h
      cases h
      obtain ⟨hvalid, htakes₁⟩ := readXLogRecordBlockImageHeader_iff.mp h₁
      exact ⟨hvalid, htakes₁.hold (shrink_iff.mp h₂)⟩
    · rintro ⟨hvalid, htakes⟩
      obtain ⟨r₁, htakes₁, htakes₂⟩ := htakes.split_held
      refine bind_of_ok (readXLogRecordBlockImageHeader_iff.mpr ⟨hvalid, htakes₁⟩) ?_
      exact bind_of_ok (shrink_iff.mpr htakes₂) rfl

theorem readXLogRecordBlockHeader_ok {last : Option RelFileNode} {blockID : ℕ} {maxReadBlockID : ℤ}
    {r r' : ShrinkableReader} {header : XLogRecordBlockHeader}
    (h : readXLogRecordBlockHeader last blockID maxReadBlockID r = .ok (header, r')) :
    header.blockID = blockID ∧ header.Valid last maxReadBlockID ∧
      ∀ r₀ : ShrinkableReader, r₀.Takes (leBytes 1 blockID) 0 r →
        r₀.Takes header.encode (header.dataLength + header.imageLength) r' := by
  rw [readXLogRecordBlockHeader] at h
  split_ifs at h with hmax horder
  obtain ⟨⟨forkFlags, r₁⟩, h₁, h⟩ := bind_ok h
  obtain ⟨⟨dataLength, r₂⟩, h₂, h⟩ := bind_ok h
  dsimp only at h
  split_ifs at h with hdata
  obtain ⟨r₃, h₃, h⟩ := bind_ok h
  obtain ⟨⟨imageHeader, r₄⟩, h₄, h⟩ := bind_ok h
  obtain ⟨⟨location, r₅⟩, h₅, h⟩ := bind_ok h
  cases h
  obtain ⟨hlt₁, htakes₁⟩ := readField_iff.mp h₁
  obtain ⟨hlt₂, htakes₂⟩ := readField_iff.mp h₂
  obtain ⟨himage, hnoImage, htakes₄⟩ := readImageHeaderOf_iff.mp h₄
  obtain ⟨hsame, htakes₅⟩ := readBlockLocation_iff.mp h₅
  refine ⟨rfl, ⟨not_lt.mp hmax, not_le.mp horder, hlt₁, hlt₂, not_not.mp hdata, himage, hnoImage, hsame⟩,
    fun r₀ htakes₀ => ?_⟩
  have htakes := htakes₀.trans ((((htakes₁.trans htakes₂).hold (shrink_iff.mp h₃)).trans htakes₄).trans htakes₅)
  rwa [Nat.zero_add, Nat.add_zero] at htakes

theorem readXLogRecordBlockHeader_encode {last : Option RelFileNode} {maxReadBlockID : ℤ} {r₀ r' : ShrinkableReader}
    {header : XLogRecordBlockHeader} (hvalid : header.Valid last maxReadBlockID)
    (htakes : r₀.Takes header.encode (header.dataLength + header.imageLength) r') :
    ∃ r, r₀.Takes (leBytes 1 header.blockID) 0 r ∧
      readXLogRecordBlockHeader last header.blockID maxReadBlockID r = .ok (header, r') := by
  have hheld : header.dataLength + header.imageLength = 0 + (header.dataLength + header.imageLength + 0) := by omega
  rw [hheld] at htakes
  obtain ⟨r, htakes₀, htakes⟩ := htakes.split
  obtain ⟨r₄, htakes, htakes₅⟩ := htakes.split
  obtain ⟨r₃, htakes, htakes₄⟩ := htakes.split
  obtain ⟨r₂, htakes, htakes₃⟩ := htakes.split_held
  obtain ⟨r₁, htakes₁, htakes₂⟩ := htakes.split_zero
  refine ⟨r, htakes₀, ?_⟩
  rw [readXLogRecordBlockHeader, if_neg (not_lt.mpr hvalid.blockID_le), if_neg (not_le.mpr hvalid.blockID_gt)]
  refine bind_of_ok (readField_iff.mpr ⟨hvalid.forkFlags_lt, htakes₁⟩) ?_
  refine bind_of_ok (readField_iff.mpr ⟨hvalid.dataLength_lt, htakes₂⟩) ?_
  refine (if_neg (not_not.mpr hvalid.hasData)).trans ?_
  refine bind_of_ok (shrink_iff.mpr htakes₃) ?_
  refine bind_of_ok (readImageHeaderOf_iff.mpr ⟨hvalid.image, hvalid.noImage, htakes₄⟩) ?_
  exact bind_of_ok (readBlockLocation_iff.mpr ⟨hvalid.sameRel, htakes₅⟩) rfl

end BlockHeader

end WalG.XLog
