import WalG.Backup.PageReader
import WalG.PageFile.Apply

/-! # Packing a file into a tar

A relation without a bitmap is skipped altogether: the restore then keeps the file of the base
backup as it is, also when the file was truncated since.
-/
namespace WalG.Backup
open Foundation PageFile List

inductive PackError where
  | skippedFile
  | fileNotExist
  | deltaMap (e : DeltaMapError)
  | scan (e : ScanError)
  | read (e : ReadError)
  deriving DecidableEq, Repr

/-- What goes into the tar and how the file list describes it. -/
structure PackedFile where
  isIncremented : Bool
  data : Bytes
  deriving DecidableEq, Repr

/-- A packer: the delta map (none stands for a full scan) and the base LSN. -/
structure TarBallFilePacker where
  deltaMap : Option PagedFileDeltaMap
  incrementFromLsn : ℕ

def TarBallFilePacker.getDeltaBitmapFor (packer : TarBallFilePacker) (filePath : Text) :
    Except DeltaMapError (Option Bitmap) :=
  match packer.deltaMap with
  | none => .ok none
  | some deltaMap => (Backup.getDeltaBitmapFor deltaMap filePath).map some

/-- The whole file, cut or filled up with zeros to the size in the tar header. -/
def startReadingFile (file : Option Bytes) (fileSize : ℕ) : Except PackError PackedFile :=
  match file with
  | none => .error .fileNotExist
  | some content => .ok ⟨false, truncate content fileSize⟩

/-- The file is given by its content when it is opened (none if it is gone by
then) and by the size found before; an invalid page falls back to the whole file. -/
def createFileReadCloser (packer : TarBallFilePacker) (path : Text) (isIncremented : Bool)
    (file : Option Bytes) (fileSize : ℕ) : Except PackError PackedFile :=
  if isIncremented then
    match packer.getDeltaBitmapFor path with
    | .error .noBitmapFound => .error .skippedFile
    | .error e => .error (.deltaMap e)
    | .ok bitmap =>
      match file with
      | none => .error .fileNotExist
      | some content =>
        match IncrementalPageReader.start content fileSize packer.incrementFromLsn bitmap with
        | .error (.invalidBlock _) => startReadingFile file fileSize
        | .error e => .error (.scan e)
        | .ok (reader, size) =>
          -- behind the end of the reader come zeros, up to the size
          if reader.stream.ending = .eof then .ok ⟨true, truncate reader.stream.data size⟩
          else .error (.read reader.stream.ending)
  else startReadingFile file fileSize

/-- The effect of packing on the backup: an entry of the file list without data,
nothing at all, or an entry with data. -/
inductive PackResult where
  | skipped
  | ignored
  | packed (file : PackedFile)
  | failed (e : PackError)
  deriving DecidableEq, Repr

def packFileIntoTar (packer : TarBallFilePacker) (path : Text) (isIncremented : Bool)
    (file : Option Bytes) (fileSize : ℕ) : PackResult :=
  match createFileReadCloser packer path isIncremented file fileSize with
  | .error .skippedFile => .skipped
  | .error .fileNotExist => .ignored
  | .error e => .failed e
  | .ok packed => .packed packed

theorem truncate_self (data : Bytes) : truncate data data.length = data := by
  simp [truncate]

/-- With a bitmap, an unchanging segment file is packed as the increment of the
bitmap's blocks inside the file. -/
theorem packFileIntoTar_bitmap (deltaMap : PagedFileDeltaMap) (lsn : ℕ) (root : Text)
    (p : SegmentPath) (pages : List Page) (hlen : pages.length ≤ blocksInRelFile) {bitmap : Bitmap}
    (hbitmap : deltaMap (p.node root) = some bitmap) :
    ∃ inc : Increment, inc.Fits ∧ inc.pageCount = pages.length ∧
      (∀ b, inc.page? b = if p.segmentNo * blocksInRelFile + b ∈ bitmap then pages[b]? else none) ∧
      packFileIntoTar ⟨some deltaMap, lsn⟩ (p.path root) true (some (joinBlocks pages))
        (joinBlocks pages).length = .packed ⟨true, inc.encode⟩ := by
  have hlt : ∀ b ∈ selectRelFileBlocks bitmap p.segmentNo, b < blocksInRelFile :=
    fun b hb => (mem_selectRelFileBlocks.mp hb).1
  have hmem : ∀ b, b ∈ deltaBitmapInitialize (joinBlocks pages).length
      (selectRelFileBlocks bitmap p.segmentNo) ↔
        p.segmentNo * blocksInRelFile + b ∈ bitmap ∧ b < pages.length := by
    intro b
    rw [joinBlocks_length, mem_deltaBitmapInitialize hlt, mem_selectRelFileBlocks]
    constructor
    · rintro ⟨⟨-, hb⟩, hbl⟩
      exact ⟨hb, hbl⟩
    · rintro ⟨hb, hbl⟩
      exact ⟨⟨by omega, hb⟩, hbl⟩
  have hpages : pages.length < 2 ^ 32 := lt_of_le_of_lt hlen (by decide)
  have hinc := deltaBitmapInitialize_increasing (joinBlocks pages).length
    (selectRelFileBlocks bitmap p.segmentNo)
  have hbelow := fun b hb => ((hmem b).mp hb).2
  refine ⟨incrementOf pages _ hinc hbelow hpages, ?_, rfl, ?_, ?_⟩
  · have hcount := length_le_of_increasing hinc hbelow
    have hbound : blocksInRelFile * 4 < 2 ^ 32 := by decide
    simp only [Increment.Fits, incrementOf, length_map, sizeofInt32]
    omega
  · intro b
    rw [incrementOf_page?]
    simp only [hmem]
    by_cases hb : p.segmentNo * blocksInRelFile + b ∈ bitmap
    · by_cases hbl : b < pages.length <;> simp [hb, hbl]
    · simp [hb]
  · have hall := stream_of_readAll (readAll_incrementOf pages _ hinc hbelow hpages)
    have hsize := incrementOf_encode_length pages _ hinc hbelow hpages
    simp only [packFileIntoTar, createFileReadCloser, TarBallFilePacker.getDeltaBitmapFor,
      getDeltaBitmapFor_path, hbitmap, Except.map, if_true, IncrementalPageReader.start, hall,
      Reader.ofBytes, ← hsize, truncate_self]

theorem packFileIntoTar_noBitmap (deltaMap : PagedFileDeltaMap) (lsn : ℕ) (root : Text)
    (p : SegmentPath) (file : Option Bytes) (fileSize : ℕ) (h : deltaMap (p.node root) = none) :
    packFileIntoTar ⟨some deltaMap, lsn⟩ (p.path root) true file fileSize = .skipped := by
  simp only [packFileIntoTar, createFileReadCloser, TarBallFilePacker.getDeltaBitmapFor,
    getDeltaBitmapFor_path, h, Except.map, if_true]

/-- Restoring what was packed over the base file: a skipped file stays as it is. -/
def restoreOver (base : Bytes) : PackResult → Option Bytes × Except FileError Unit
  | .packed ⟨true, data⟩ => applyFileIncrement (some base) (.ofBytes data) false
  | .packed ⟨false, data⟩ => (some data, .ok ())
  | _ => (some base, .ok ())

/-- Every block of the new file that is not the same block of the base is
recorded for the relation. -/
def Recorded (deltaMap : PagedFileDeltaMap) (root : Text) (p : SegmentPath)
    (base new : List Page) : Prop :=
  ∀ b < new.length, new[b]? ≠ base[b]? →
    ∃ bitmap, deltaMap (p.node root) = some bitmap ∧ p.segmentNo * blocksInRelFile + b ∈ bitmap

theorem unchanged_of_noBitmap {deltaMap : PagedFileDeltaMap} {root : Text} {p : SegmentPath}
    {base new : List Page} (hm : deltaMap (p.node root) = none)
    (hrec : Recorded deltaMap root p base new) (hlen : base.length = new.length) : base = new := by
  apply ext_getElem?
  intro b
  by_cases hb : b < new.length
  · by_contra hne
    obtain ⟨bitmap, hbitmap, -⟩ := hrec b hb (Ne.symm hne)
    cases hm.symm.trans hbitmap
  · rw [getElem?_eq_none (by omega), getElem?_eq_none (by omega)]

theorem apply_of_recorded {deltaMap : PagedFileDeltaMap} {root : Text} {p : SegmentPath}
    {base new : List Page} {bitmap : Bitmap} {inc : Increment}
    (hm : deltaMap (p.node root) = some bitmap) (hrec : Recorded deltaMap root p base new)
    (hcount : inc.pageCount = new.length)
    (hpage : ∀ b, inc.page? b = if p.segmentNo * blocksInRelFile + b ∈ bitmap then new[b]? else none) :
    inc.apply base = new := by
  apply ext_getElem?
  intro b
  by_cases hb : b < new.length
  · rw [inc.apply_getElem? base (hcount ▸ hb), hpage]
    by_cases hmem : p.segmentNo * blocksInRelFile + b ∈ bitmap
    · simp [hmem, hb]
    · have hsame : new[b]? = base[b]? := by
        by_contra hne
        obtain ⟨bitmap', hbitmap, hin⟩ := hrec b hb hne
        obtain rfl : bitmap = bitmap' := Option.some.inj (hm.symm.trans hbitmap)
        exact hmem hin
      rw [if_neg hmem, Option.getD_none, ← hsame, getElem?_eq_getElem hb, Option.getD_some]
  · rw [inc.apply_getElem?_ge base (by omega), getElem?_eq_none (by omega)]

/-- Packing against a map that records all changes and restoring over the base
gives the new file exactly when the map knows the relation or the file kept its
length. -/
theorem restoreOver_packFileIntoTar_iff (deltaMap : PagedFileDeltaMap) (lsn : ℕ) (root : Text)
    (p : SegmentPath) (base new : List Page) (hlen : new.length ≤ blocksInRelFile)
    (hrec : Recorded deltaMap root p base new) :
    restoreOver (joinBlocks base) (packFileIntoTar ⟨some deltaMap, lsn⟩ (p.path root) true
        (some (joinBlocks new)) (joinBlocks new).length) = (some (joinBlocks new), .ok ()) ↔
      (deltaMap (p.node root)).isSome ∨ base.length = new.length := by
  cases hm : deltaMap (p.node root) with
  | none =>
    rw [packFileIntoTar_noBitmap deltaMap lsn root p _ _ hm]
    simp only [restoreOver, Prod.mk.injEq, Option.some.injEq, and_true, Option.isSome_none,
      Bool.false_eq_true, false_or]
    constructor
    · intro h
      rw [joinBlocks_injective (by decide) h]
    · intro h
      rw [unchanged_of_noBitmap hm hrec h]
  | some bitmap =>
    obtain ⟨inc, hf, hcount, hpage, hpack⟩ :=
      packFileIntoTar_bitmap deltaMap lsn root p new hlen hm
    rw [hpack, restoreOver, Reader.ofBytes, applyFileIncrement_encode inc hf]
    simp only [Option.isSome_some, true_or, iff_true]
    rw [apply_of_recorded hm hrec hcount hpage]

def firstSegment : SegmentPath := ⟨none, 1, 1, none, SegmentPath.no_tablespace, by simp⟩

/-- Of two pages the first is kept and the second changed, and a third is added. -/
theorem restoreOver_packFileIntoTar_appended : let base := [filledPage 1 0 7, filledPage 2 0 7]
    let new := [filledPage 1 0 7, filledPage 9 0 8, filledPage 9 0 9]
    restoreOver (joinBlocks base) (packFileIntoTar ⟨some fun _ => some {1, 2}, 5⟩ (firstSegment.path []) true
      (some (joinBlocks new)) (joinBlocks new).length) = (some (joinBlocks new), .ok ()) := by
  intro base new
  refine (restoreOver_packFileIntoTar_iff (fun _ => some {1, 2}) 5 [] firstSegment base new (by decide) ?_).mpr (.inl rfl)
  rintro (_ | _ | _ | b) hb hne
  · exact absurd rfl hne
  · exact ⟨_, rfl, by decide⟩
  · exact ⟨_, rfl, by decide⟩
  · exact absurd hb (by simp [new])

/-- A file of two pages lost its second one; no block location records that. -/
theorem packFileIntoTar_skips_truncated :
    Recorded newPagedFileDeltaMap [] firstSegment [emptyPage, emptyPage] [emptyPage] ∧
      restoreOver (joinBlocks [emptyPage, emptyPage]) (packFileIntoTar ⟨some newPagedFileDeltaMap, 0⟩
        (firstSegment.path []) true (some (joinBlocks [emptyPage]))
        (joinBlocks [emptyPage]).length) ≠ (some (joinBlocks [emptyPage]), .ok ()) := by
  constructor
  · intro b hb hne
    obtain rfl : b = 0 := by simpa using hb
    exact absurd rfl hne
  · rw [packFileIntoTar_noBitmap _ _ _ _ _ _ rfl]
    intro h
    have hbytes := Option.some.inj (Prod.mk.inj h).1
    have hpages := congrArg length (joinBlocks_injective (by decide) hbytes)
    simp at hpages

end WalG.Backup
