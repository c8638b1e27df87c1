import WalG.Foundation.Stream
import WalG.Foundation.BlockFile

/-! # The increment format of a paged file

An increment is a four-byte designation, the size of the file it was taken from, the number of
changed pages, their block numbers and the pages.
-/
namespace WalG.PageFile
open Foundation List

def databasePageSize : ℕ := 8192
def sizeofInt32 : ℕ := 4
def sizeofInt64 : ℕ := 8
def headerSize : ℕ := 24
def signatureMagicNumber : UInt8 := 0x55

abbrev Page := Block databasePageSize

def emptyPage : Page := zeroBlock databasePageSize

/-- The errors of the page file routines. `indexOutOfRange` is the runtime panic
of a slice expression; `invalidSize` is the refusal to truncate to a size that
is negative as an int64. -/
inductive FileError where
  | read (e : ReadError)
  | invalidIncrementFileHeader
  | unknownIncrementFileHeader
  | unexpectedTarData
  | notExist
  | invalidSize
  | indexOutOfRange
  deriving DecidableEq, Repr

def readFull (r : Reader) (n : ℕ) : Except FileError (Bytes × Reader) :=
  (r.readFull n).mapError .read

def readField (r : Reader) (w : ℕ) : Except FileError (ℕ × Reader) :=
  (r.readLE w).mapError .read

/-- `wi` for wal-g increment, format version `1`, signature magic number. -/
def incrementFileHeader : Bytes := [0x77, 0x69, 0x31, signatureMagicNumber]

def readIncrementFileHeader (reader : Reader) : Except FileError Reader := do
  let (header, reader) ← readFull reader sizeofInt32
  if header[0]? ≠ some 0x77 ∨ header[1]? ≠ some 0x69 ∨ header[3]? ≠ some signatureMagicNumber then
    .error .invalidIncrementFileHeader
  else if header[2]? ≠ some 0x31 then .error .unknownIncrementFileHeader
  else .ok reader

structure IncrementHeader where
  fileSize : ℕ
  diffBlockCount : ℕ
  diffMap : Bytes

/-- Header fields and block table; the table's byte length is a uint32 product. -/
def getIncrementHeaderFields (increment : Reader) : Except FileError (IncrementHeader × Reader) := do
  let increment ← readIncrementFileHeader increment
  let (fileSize, increment) ← readField increment sizeofInt64
  let (diffBlockCount, increment) ← readField increment sizeofInt32
  let (diffMap, increment) ← readFull increment (diffBlockCount * sizeofInt32 % 2 ^ 32)
  return (⟨fileSize, diffBlockCount, diffMap⟩, increment)

/-- The slice `diffMap[i*4 : (i+1)*4]` with its bounds computed in uint32. -/
def diffMapBlock (diffMap : Bytes) (i : ℕ) : Except FileError ℕ :=
  let lo := i * sizeofInt32 % 2 ^ 32
  let hi := (i + 1) * sizeofInt32 % 2 ^ 32
  if lo ≤ hi ∧ hi ≤ diffMap.length then .ok (leNat ((diffMap.drop lo).take (hi - lo)))
  else .error .indexOutOfRange

/-- A well-formed increment: a page-multiple file size that is a nonnegative
int64, and pages at strictly increasing block numbers below the page count. The
block count and the block numbers are uint32 fields. -/
structure Increment where
  pageCount : ℕ
  blocks : List (ℕ × Page)
  increasing : (blocks.map Prod.fst).Pairwise (· < ·)
  below : ∀ b ∈ blocks, b.1 < pageCount
  size_lt : pageCount * databasePageSize < 2 ^ 63
  count_lt : blocks.length < 2 ^ 32
  blockNo_lt : ∀ b ∈ blocks, b.1 < 2 ^ 32

namespace Increment

def fileSize (inc : Increment) : ℕ := inc.pageCount * databasePageSize
def blockNos (inc : Increment) : List ℕ := inc.blocks.map Prod.fst
def pages (inc : Increment) : List Page := inc.blocks.map Prod.snd

def header (inc : Increment) : Bytes :=
  incrementFileHeader ++ (leBytes sizeofInt64 inc.fileSize ++
    (leBytes sizeofInt32 inc.blocks.length ++ leTable sizeofInt32 inc.blockNos))

def encode (inc : Increment) : Bytes := inc.header ++ joinBlocks inc.pages

/-- The block table's length does not wrap in the decoder. -/
def Fits (inc : Increment) : Prop := inc.blocks.length * sizeofInt32 < 2 ^ 32

/-- The page the increment stores for a block. -/
def page? (inc : Increment) (blockNo : ℕ) : Option Page := inc.blocks.lookup blockNo

theorem two_pages_lt : 2 * databasePageSize < 2 ^ 63 := by decide

/-- The increment that stores one page. -/
def single (pageCount : ℕ) (b : UInt32) (page : Page) (hb : b.toNat < pageCount)
    (hsize : pageCount * databasePageSize < 2 ^ 63) : Increment where
  pageCount := pageCount
  blocks := [(b.toNat, page)]
  increasing := pairwise_singleton _ _
  below := by simpa using hb
  size_lt := hsize
  count_lt := by simp
  blockNo_lt := by simpa using b.toNat_lt

instance (inc : Increment) : Decidable inc.Fits := inferInstanceAs (Decidable (_ < _))

@[simp] theorem blockNos_length (inc : Increment) : inc.blockNos.length = inc.blocks.length := by
  simp [blockNos]

theorem header_length (inc : Increment) : inc.header.length = 16 + inc.blocks.length * 4 := by
  simp [header, incrementFileHeader, sizeofInt64, sizeofInt32]
  omega

theorem fileSize_lt (inc : Increment) : inc.fileSize < 2 ^ 63 := inc.size_lt

theorem nodup (inc : Increment) : (inc.blocks.map Prod.fst).Nodup :=
  inc.increasing.imp Nat.ne_of_lt

end Increment

variable (inc : Increment)

theorem readFull_append {a b : Bytes} {n : ℕ} (h : a.length = n) (e : ReadError) :
    readFull ⟨a ++ b, e⟩ n = .ok (a, ⟨b, e⟩) := by
  rw [readFull, Reader.readFull_append h]
  rfl

theorem readField_append (w n : ℕ) (b : Bytes) (e : ReadError) :
    readField ⟨leBytes w n ++ b, e⟩ w = .ok (n % 256 ^ w, ⟨b, e⟩) := by
  rw [readField, Reader.readLE_append]
  rfl

theorem readIncrementFileHeader_append (b : Bytes) (e : ReadError) :
    readIncrementFileHeader ⟨incrementFileHeader ++ b, e⟩ = .ok ⟨b, e⟩ := by
  have hr := readFull_append (a := incrementFileHeader) (b := b) (n := sizeofInt32) rfl e
  simp only [readIncrementFileHeader, hr, bind, Except.bind]
  rw [if_neg (by decide), if_neg (by decide)]

theorem getIncrementHeaderFields_header (rest : Bytes) (e : ReadError) :
    getIncrementHeaderFields ⟨inc.header ++ rest, e⟩ =
      (readFull ⟨leTable sizeofInt32 inc.blockNos ++ rest, e⟩ (inc.blocks.length * sizeofInt32 % 2 ^ 32)).map
          fun p => (⟨inc.fileSize, inc.blocks.length, p.1⟩, p.2) := by
  have hsize : inc.fileSize % 256 ^ sizeofInt64 = inc.fileSize := by
    apply Nat.mod_eq_of_lt
    have := inc.fileSize_lt
    simp only [sizeofInt64]
    omega
  have hcount : inc.blocks.length % 256 ^ sizeofInt32 = inc.blocks.length := by
    apply Nat.mod_eq_of_lt
    have := inc.count_lt
    simp only [sizeofInt32]
    omega
  simp only [getIncrementHeaderFields, Increment.header, append_assoc, bind, Except.bind,
    readIncrementFileHeader_append, readField_append, hsize, hcount]
  cases readFull ⟨leTable sizeofInt32 inc.blockNos ++ rest, e⟩
    (inc.blocks.length * sizeofInt32 % 2 ^ 32) <;> rfl

theorem getIncrementHeaderFields_fits (hf : inc.Fits) (rest : Bytes) (e : ReadError) :
    getIncrementHeaderFields ⟨inc.header ++ rest, e⟩ =
      .ok (⟨inc.fileSize, inc.blocks.length, leTable sizeofInt32 inc.blockNos⟩, ⟨rest, e⟩) := by
  have hlen : (leTable sizeofInt32 inc.blockNos).length =
      inc.blocks.length * sizeofInt32 % 2 ^ 32 := by
    rw [leTable_length, inc.blockNos_length, Nat.mod_eq_of_lt hf]
  rw [getIncrementHeaderFields_header, readFull_append hlen]
  rfl

theorem readFull_length {r r' : Reader} {n : ℕ} {bs : Bytes} (h : readFull r n = .ok (bs, r')) : bs.length = n :=
  (Reader.readFull_iff.mp (mapError_ok_iff.mp h)).1

/-- A decoded block table has the wrapped length of its announced entries. -/
theorem getIncrementHeaderFields_wrapped {rest : Bytes} {e : ReadError} {h : IncrementHeader} {r : Reader}
    (hd : getIncrementHeaderFields ⟨inc.header ++ rest, e⟩ = .ok (h, r)) :
    h.fileSize = inc.fileSize ∧ h.diffBlockCount = inc.blocks.length ∧
      h.diffMap.length = inc.blocks.length * sizeofInt32 % 2 ^ 32 := by
  rw [getIncrementHeaderFields_header] at hd
  cases hr : readFull ⟨leTable sizeofInt32 inc.blockNos ++ rest, e⟩
      (inc.blocks.length * sizeofInt32 % 2 ^ 32) with
  | error err =>
    rw [hr] at hd
    cases hd
  | ok p =>
    rw [hr] at hd
    cases hd
    exact ⟨rfl, rfl, readFull_length hr⟩

/-- An entry of a decoded table. -/
def blockEntry (diffMap : Bytes) (i : ℕ) : ℕ := leNat ((diffMap.drop (i * sizeofInt32)).take sizeofInt32)

theorem diffMapBlock_of_le {diffMap : Bytes} {i : ℕ} (hlen : diffMap.length < 2 ^ 32)
    (hi : (i + 1) * sizeofInt32 ≤ diffMap.length) : diffMapBlock diffMap i = .ok (blockEntry diffMap i) := by
  have hlo : i * sizeofInt32 % 2 ^ 32 = i * sizeofInt32 := by
    simp only [sizeofInt32] at hi ⊢
    omega
  have hhi : (i + 1) * sizeofInt32 % 2 ^ 32 = i * sizeofInt32 + sizeofInt32 := by
    simp only [sizeofInt32] at hi ⊢
    omega
  have hin : i * sizeofInt32 + sizeofInt32 ≤ diffMap.length := by
    omega
  unfold diffMapBlock
  rw [hlo, hhi, if_pos (And.intro (Nat.le_add_right _ _) hin), Nat.add_sub_cancel_left, blockEntry]

theorem blockEntry_leTable {blocks : List ℕ} {i b : ℕ} (hlt : ∀ b ∈ blocks, b < 256 ^ sizeofInt32)
    (hb : blocks[i]? = some b) : blockEntry (leTable sizeofInt32 blocks) i = b := by
  obtain ⟨hi, rfl⟩ := List.getElem?_eq_some_iff.mp hb
  rw [blockEntry, leTable_slice _ _ _ hi, leNat_leBytes_of_lt (hlt _ (getElem_mem hi))]

theorem diffMapBlock_table (hf : inc.Fits) {i b : ℕ} (hb : inc.blockNos[i]? = some b) :
    diffMapBlock (leTable sizeofInt32 inc.blockNos) i = .ok b := by
  have hlen : (leTable sizeofInt32 inc.blockNos).length = inc.blockNos.length * sizeofInt32 :=
    leTable_length _ _
  have hlt : ∀ b ∈ inc.blockNos, b < 256 ^ sizeofInt32 := by
    intro b hb
    obtain ⟨p, hp, rfl⟩ := mem_map.mp hb
    exact inc.blockNo_lt p hp
  obtain ⟨hi, -⟩ := List.getElem?_eq_some_iff.mp hb
  unfold Increment.Fits at hf
  rw [← inc.blockNos_length] at hf
  rw [diffMapBlock_of_le (hlen ▸ hf) (hlen ▸ Nat.mul_le_mul_right _ hi), blockEntry_leTable hlt hb]

/-- Past the end of a decoded table the slice expression panics. -/
theorem diffMapBlock_past {diffMap : Bytes} {i : ℕ} (hlen : diffMap.length < 2 ^ 32)
    (hi : diffMap.length = i * sizeofInt32) : diffMapBlock diffMap i = .error .indexOutOfRange := by
  apply if_neg
  simp only [sizeofInt32] at hi ⊢
  omega

/-- A table that wraps has an announced entry on which the decoder panics. -/
theorem Increment.table_wrapped (hf : ¬ inc.Fits) {rest : Bytes} {e : ReadError} {h : IncrementHeader} {r : Reader}
    (hd : getIncrementHeaderFields ⟨inc.header ++ rest, e⟩ = .ok (h, r)) :
    ∃ m, diffMapBlock h.diffMap m = .error .indexOutOfRange ∧ m < h.diffBlockCount := by
  obtain ⟨-, hcount, hlen⟩ := getIncrementHeaderFields_wrapped inc hd
  refine ⟨inc.blocks.length - 2 ^ 30 * (inc.blocks.length / 2 ^ 30), ?_, ?_⟩
  · apply diffMapBlock_past
    · rw [hlen]
      exact Nat.mod_lt _ (by norm_num)
    · rw [hlen]
      simp only [sizeofInt32]
      omega
  · rw [hcount]
    simp only [Fits, sizeofInt32] at hf
    omega

theorem length_le_of_increasing {blocks : List ℕ} {n : ℕ} (hinc : blocks.Pairwise (· < ·))
    (hlt : ∀ b ∈ blocks, b < n) : blocks.length ≤ n := by
  have hsub : blocks ⊆ range n := fun b hb => mem_range.mpr (hlt b hb)
  have hnd : blocks.Nodup := hinc.imp Nat.ne_of_lt
  have hle := (subperm_of_subset hnd hsub).length_le
  rwa [length_range] at hle

theorem Increment.blocks_length_le : inc.blocks.length ≤ inc.pageCount := by
  have hlt : ∀ b ∈ inc.blocks.map Prod.fst, b < inc.pageCount := by
    intro b hb
    obtain ⟨block, hblock, rfl⟩ := mem_map.mp hb
    exact inc.below block hblock
  have hle := length_le_of_increasing inc.increasing hlt
  rwa [length_map] at hle

end WalG.PageFile
