import WalG.XLog.HeaderEncoding

/-! # The entries of a header part

The loop over the header part accepts the headers of the blocks, of the main data and of the origin
in whatever order and number.
-/
namespace WalG.XLog
open Foundation PageFile ShrinkableReader

/-- One entry of a header part, with the block id it begins with. -/
inductive HeaderEntry where
  | dataShort (mainDataLen : ℕ)
  | dataLong (mainDataLen : ℕ)
  | origin (value : ℕ)
  | block (header : XLogRecordBlockHeader)

namespace HeaderEntry

def encode : HeaderEntry → Bytes
  | dataShort mainDataLen => leBytes 1 xlrBlockIDDataShort ++ leBytes 1 mainDataLen
  | dataLong mainDataLen => leBytes 1 xlrBlockIDDataLong ++ leBytes 4 mainDataLen
  | origin value => leBytes 1 xlrBlockIDOrigin ++ leBytes 2 value
  | block header => header.encode

/-- The length of the data that the entry announces. -/
def announced : HeaderEntry → ℕ
  | dataShort mainDataLen => mainDataLen
  | dataLong mainDataLen => mainDataLen
  | origin _ => 0
  | block header => header.dataLength + header.imageLength

end HeaderEntry

namespace HeaderPart

/-- What is collected after an entry; a length of main data takes the place of an earlier one. -/
def add (part : HeaderPart) : HeaderEntry → HeaderPart
  | .dataShort mainDataLen => { part with mainDataLen := mainDataLen }
  | .dataLong mainDataLen => { part with mainDataLen := mainDataLen }
  | .origin value => { part with origin := value }
  | .block header =>
    { part with
      blocks := part.blocks ++ [header]
      lastRelFileNode := some header.blockLocation.relationFileNode
      maxReadBlockID := header.blockID }

/-- The entry can stand behind what is collected. -/
def Admits (part : HeaderPart) : HeaderEntry → Prop
  | .dataShort mainDataLen => mainDataLen < 256 ^ 1
  | .dataLong mainDataLen => mainDataLen < 256 ^ 4
  | .origin value => value < 256 ^ 2
  | .block header => header.Valid part.lastRelFileNode part.maxReadBlockID

def AdmitsAll (part : HeaderPart) : List HeaderEntry → Prop
  | [] => True
  | entry :: entries => part.Admits entry ∧ (part.add entry).AdmitsAll entries

def withReader (part : HeaderPart) (r : ShrinkableReader) : HeaderPart := { part with reader := r }

variable {part part' : HeaderPart} {blockID : ℕ} {r r' : ShrinkableReader} {entry : HeaderEntry}

theorem round_ok (hread : part.reader.readField 1 = .ok (blockID, r)) (h : part.round blockID r = .ok part') :
    ∃ entry, part.Admits entry ∧ part.reader.Takes entry.encode entry.announced part'.reader ∧
      part' = (part.add entry).withReader part'.reader := by
  obtain ⟨-, htakes⟩ := readField_iff.mp hread
  rw [round] at h
  split_ifs at h with hshort hlong horigin
  · obtain ⟨⟨mainDataLen, r₁⟩, h₁, h⟩ := bind_ok h
    obtain ⟨r₂, h₂, h⟩ := bind_ok h
    cases h
    obtain ⟨hlt, htakes₁⟩ := readField_iff.mp h₁
    rw [hshort] at htakes
    exact ⟨.dataShort mainDataLen, hlt, (htakes.trans htakes₁).hold (shrink_iff.mp h₂), rfl⟩
  · obtain ⟨⟨mainDataLen, r₁⟩, h₁, h⟩ := bind_ok h
    obtain ⟨r₂, h₂, h⟩ := bind_ok h
    cases h
    obtain ⟨hlt, htakes₁⟩ := readField_iff.mp h₁
    rw [hlong] at htakes
    exact ⟨.dataLong mainDataLen, hlt, (htakes.trans htakes₁).hold (shrink_iff.mp h₂), rfl⟩
  · obtain ⟨⟨origin, r₁⟩, h₁, h⟩ := bind_ok h
    cases h
    obtain ⟨hlt, htakes₁⟩ := readField_iff.mp h₁
    rw [horigin] at htakes
    exact ⟨.origin origin, hlt, htakes.trans htakes₁, rfl⟩
  · obtain ⟨⟨header, r₁⟩, h₁, h⟩ := bind_ok h
    cases h
    obtain ⟨rfl, hvalid, hheader⟩ := readXLogRecordBlockHeader_ok h₁
    exact ⟨.block header, hvalid, hheader _ htakes, rfl⟩

theorem round_encode (hadmits : part.Admits entry) (htakes : part.reader.Takes entry.encode entry.announced r') :
    ∃ blockID r, part.reader.readField 1 = .ok (blockID, r) ∧
      part.round blockID r = .ok ((part.add entry).withReader r') := by
  cases entry with
  | dataShort mainDataLen =>
    obtain ⟨r₁, htakes, htakes₂⟩ := htakes.split_held
    obtain ⟨r, htakes, htakes₁⟩ := htakes.split_zero
    refine ⟨_, r, readField_iff.mpr ⟨by decide, htakes⟩, ?_⟩
    rw [round, if_pos rfl]
    exact bind_of_ok (readField_iff.mpr ⟨hadmits, htakes₁⟩) (bind_of_ok (shrink_iff.mpr htakes₂) rfl)
  | dataLong mainDataLen =>
    obtain ⟨r₁, htakes, htakes₂⟩ := htakes.split_held
    obtain ⟨r, htakes, htakes₁⟩ := htakes.split_zero
    refine ⟨_, r, readField_iff.mpr ⟨by decide, htakes⟩, ?_⟩
    rw [round, if_neg (by decide), if_pos rfl]
    exact bind_of_ok (readField_iff.mpr ⟨hadmits, htakes₁⟩) (bind_of_ok (shrink_iff.mpr htakes₂) rfl)
  | origin value =>
    obtain ⟨r, htakes, htakes₁⟩ := htakes.split_zero
    refine ⟨_, r, readField_iff.mpr ⟨by decide, htakes⟩, ?_⟩
    rw [round, if_neg (by decide), if_neg (by decide), if_pos rfl]
    exact bind_of_ok (readField_iff.mpr ⟨hadmits, htakes₁⟩) rfl
  | block header =>
    obtain ⟨r, htakes, hread⟩ := readXLogRecordBlockHeader_encode hadmits htakes
    have hle := hadmits.blockID_le
    unfold xlrMaxBlockID at hle
    refine ⟨header.blockID, r, readField_iff.mpr ⟨lt_of_le_of_lt hle (by decide), htakes⟩, ?_⟩
    rw [round, if_neg (by unfold xlrBlockIDDataShort; omega), if_neg (by unfold xlrBlockIDDataLong; omega),
      if_neg (by unfold xlrBlockIDOrigin; omega)]
    exact bind_of_ok hread rfl

theorem add_withReader (part : HeaderPart) (r : ShrinkableReader) (entry : HeaderEntry) :
    (part.withReader r).add entry = (part.add entry).withReader r := by
  cases entry <;> rfl

theorem foldl_add_withReader (entries : List HeaderEntry) (part : HeaderPart) (r : ShrinkableReader) :
    entries.foldl add (part.withReader r) = (entries.foldl add part).withReader r := by
  induction entries generalizing part with
  | nil => rfl
  | cons entry entries ih => rw [List.foldl_cons, List.foldl_cons, add_withReader, ih]

theorem admits_withReader : (part.withReader r).Admits entry ↔ part.Admits entry := by
  cases entry <;> rfl

theorem admitsAll_withReader {entries : List HeaderEntry} :
    (part.withReader r).AdmitsAll entries ↔ part.AdmitsAll entries := by
  induction entries generalizing part with
  | nil => rfl
  | cons entry entries ih => rw [AdmitsAll, AdmitsAll, admits_withReader, add_withReader, ih]

end HeaderPart

open HeaderPart

/-- The bytes of the entries, one after the other. -/
def encodeEntries (entries : List HeaderEntry) : Bytes := entries.flatMap HeaderEntry.encode

/-- The length of all the data that the entries announce. -/
def announcedBy (entries : List HeaderEntry) : ℕ := (entries.map HeaderEntry.announced).sum

/-- What the loop accepts is a list of entries that fills the reader up to the announced data. -/
theorem readXLogRecordBlockHeaderPart_ok {part part' : HeaderPart}
    (h : readXLogRecordBlockHeaderPart part = .ok part') : ∃ entries, part.AdmitsAll entries ∧
      part.reader.Takes (encodeEntries entries) (announcedBy entries) part'.reader ∧
      part'.reader.dataRemained = 0 ∧ part' = (entries.foldl add part).withReader part'.reader := by
  fun_induction readXLogRecordBlockHeaderPart part with
  | case1 part hzero =>
    cases h
    exact ⟨[], trivial, .refl _, hzero, rfl⟩
  | case2 => cases h
  | case3 => cases h
  | case4 part hzero blockID r hread part₁ hround ih =>
    obtain ⟨entry, hadmits, htakes, hpart₁⟩ := round_ok hread hround
    obtain ⟨entries, hadmitsAll, htakes', hend, hpart'⟩ := ih h
    rw [hpart₁, admitsAll_withReader] at hadmitsAll
    rw [hpart₁, foldl_add_withReader] at hpart'
    exact ⟨entry :: entries, ⟨hadmits, hadmitsAll⟩, htakes.trans htakes', hend, hpart'⟩

theorem readXLogRecordBlockHeaderPart_encode {entries : List HeaderEntry} {part : HeaderPart} {r' : ShrinkableReader}
    (hadmits : part.AdmitsAll entries) (hend : r'.dataRemained = 0)
    (htakes : part.reader.Takes (encodeEntries entries) (announcedBy entries) r') :
    readXLogRecordBlockHeaderPart part = .ok ((entries.foldl add part).withReader r') := by
  induction entries generalizing part with
  | nil =>
    obtain rfl := htakes.eq
    rw [readXLogRecordBlockHeaderPart, if_pos hend]
    rfl
  | cons entry entries ih =>
    obtain ⟨r₁, htakes₁, htakes₂⟩ :=
      Takes.split (show part.reader.Takes (entry.encode ++ encodeEntries entries)
        (entry.announced + announcedBy entries) r' from htakes)
    obtain ⟨blockID, r, hread, hround⟩ := round_encode hadmits.1 htakes₁
    have hne : part.reader.dataRemained ≠ 0 := by
      have := (readField_dataRemained hread).1
      omega
    rw [readXLogRecordBlockHeaderPart, if_neg hne]
    split
    · rename_i herror
      cases hread.symm.trans herror
    · rename_i hok
      cases hread.symm.trans hok
      split
      · rename_i herror
        cases hround.symm.trans herror
      · rename_i hok'
        cases hround.symm.trans hok'
        rw [ih (admitsAll_withReader.mpr hadmits.2) htakes₂, foldl_add_withReader]
        rfl

end WalG.XLog
