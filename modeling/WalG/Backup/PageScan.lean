import WalG.PageFile.Increment
import WalG.Foundation.Patch

/-! # Page headers and the full scan of a paged file

The scan reads a file page by page and collects the numbers of the pages that may have changed since
a base LSN: pages with a valid header and a recent LSN, and new pages.
-/
namespace WalG.Backup
open Foundation PageFile List

def invalidLsn : ℕ := 0
def validFlags : ℕ := 7
def layoutVersion : ℕ := 4

structure PageHeader where
  pdLsnH : ℕ
  pdLsnL : ℕ
  pdChecksum : ℕ
  pdFlags : ℕ
  pdLower : ℕ
  pdUpper : ℕ
  pdSpecial : ℕ
  pdPageSizeVersion : ℕ
  deriving DecidableEq, Repr

namespace PageHeader

/-- The two 32-bit halves of the LSN, high half first. -/
def lsn (header : PageHeader) : ℕ := header.pdLsnH * 2 ^ 32 + header.pdLsnL

def isValid (header : PageHeader) : Bool :=
  !(header.pdFlags &&& validFlags ≠ header.pdFlags || header.pdLower < headerSize || header.pdLower > header.pdUpper ||
    header.pdUpper > header.pdSpecial || header.pdSpecial > databasePageSize || header.lsn = invalidLsn ||
    header.pdPageSizeVersion ≠ databasePageSize + layoutVersion)

def isNew (header : PageHeader) : Bool := header.pdUpper = 0

end PageHeader

variable (page : Page) {lsn : ℕ} {pages : List Page}

def parsePostgresPageHeader (reader : Reader) : Except ReadError PageHeader := do
  let (pdLsnH, reader) ← reader.readLE 4
  let (pdLsnL, reader) ← reader.readLE 4
  let (pdChecksum, reader) ← reader.readLE 2
  let (pdFlags, reader) ← reader.readLE 2
  let (pdLower, reader) ← reader.readLE 2
  let (pdUpper, reader) ← reader.readLE 2
  let (pdSpecial, reader) ← reader.readLE 2
  let (pdPageSizeVersion, _) ← reader.readLE 2
  return ⟨pdLsnH, pdLsnL, pdChecksum, pdFlags, pdLower, pdUpper, pdSpecial, pdPageSizeVersion⟩

/-- Whether the page is valid, and the selected blocks after it. The header of a
whole page always parses. -/
def selectNewValidPage (lsn : ℕ) (pageBytes : Bytes) (blockNo : ℕ) (blocks : List ℕ) :
    Bool × List ℕ :=
  match parsePostgresPageHeader (.ofBytes pageBytes) with
  | .error _ => (false, blocks)
  | .ok pageHeader =>
    if pageHeader.isValid then
      (true, if lsn ≤ pageHeader.lsn then blocks ++ [blockNo] else blocks)
    else if pageHeader.isNew then (true, blocks ++ [blockNo])
    else (false, blocks)

inductive ScanError where
  | read (e : ReadError)
  | invalidBlock (blockNo : ℕ)
  deriving DecidableEq, Repr

/-- The scan loop. The end of the file, also inside a page, ends it in order. -/
def fullScan (lsn : ℕ) (pagedFile : Reader) (currentBlockNumber : ℕ) (blocks : List ℕ) :
    Except ScanError (List ℕ) :=
  match _h : pagedFile.readFull databasePageSize with
  | .error e => if e = .eof ∨ e = .unexpectedEOF then .ok blocks else .error (.read e)
  | .ok (pageBytes, rest) =>
    match selectNewValidPage lsn pageBytes currentBlockNumber blocks with
    | (false, _) => .error (.invalidBlock currentBlockNumber)
    | (true, blocks) => fullScan lsn rest ((currentBlockNumber + 1) % 2 ^ 32) blocks
termination_by pagedFile.data.length
decreasing_by
  obtain ⟨hle, -, rfl⟩ := Reader.readFull_ok _h
  simp only [length_drop, databasePageSize] at hle ⊢
  omega

def fullScanInitialize (lsn : ℕ) (pagedFile : Reader) : Except ScanError (List ℕ) :=
  fullScan lsn pagedFile 0 []

/-- The header of a page; a whole page always has one. -/
def pageHeader (page : Page) : PageHeader :=
  match parsePostgresPageHeader (.ofBytes page.toList) with
  | .error _ => ⟨0, 0, 0, 0, 0, 0, 0, 0⟩
  | .ok header => header

def validOrNew (page : Page) : Bool := (pageHeader page).isValid || (pageHeader page).isNew

/-- The pages a scan selects: new pages, and valid ones changed since the LSN. -/
def isSelected (lsn : ℕ) (page : Page) : Bool :=
  if (pageHeader page).isValid then lsn ≤ (pageHeader page).lsn else (pageHeader page).isNew

theorem readLE_ok {r : Reader} {w : ℕ} (h : w ≤ r.data.length) :
    r.readLE w = .ok (leNat (r.data.take w), ⟨r.data.drop w, r.ending⟩) := by
  simp [Reader.readLE, Reader.readFull, h]

theorem parsePostgresPageHeader_ok {bytes : Bytes} (h : 20 ≤ bytes.length) :
    parsePostgresPageHeader (.ofBytes bytes) = .ok
      ⟨leNat (bytes.take 4), leNat ((bytes.drop 4).take 4), leNat ((bytes.drop 8).take 2),
        leNat ((bytes.drop 10).take 2), leNat ((bytes.drop 12).take 2),
        leNat ((bytes.drop 14).take 2), leNat ((bytes.drop 16).take 2), leNat ((bytes.drop 18).take 2)⟩ := by
  have hw : ∀ off w, off + w ≤ 20 → w ≤ (bytes.drop off).length := by
    intro off w how
    rw [length_drop]
    omega
  have h0 : 4 ≤ bytes.length := by omega
  simp only [parsePostgresPageHeader, Reader.ofBytes, bind, Except.bind, pure, Except.pure,
    readLE_ok (r := ⟨bytes, .eof⟩) h0, readLE_ok (r := ⟨bytes.drop 4, .eof⟩) (hw 4 4 (by omega)),
    drop_drop, readLE_ok (r := ⟨bytes.drop 8, .eof⟩) (hw 8 2 (by omega)),
    readLE_ok (r := ⟨bytes.drop 10, .eof⟩) (hw 10 2 (by omega)),
    readLE_ok (r := ⟨bytes.drop 12, .eof⟩) (hw 12 2 (by omega)),
    readLE_ok (r := ⟨bytes.drop 14, .eof⟩) (hw 14 2 (by omega)),
    readLE_ok (r := ⟨bytes.drop 16, .eof⟩) (hw 16 2 (by omega)),
    readLE_ok (r := ⟨bytes.drop 18, .eof⟩) (hw 18 2 (by omega))]

theorem pageHeader_eq : pageHeader page = ⟨leNat (page.toList.take 4), leNat ((page.toList.drop 4).take 4),
      leNat ((page.toList.drop 8).take 2), leNat ((page.toList.drop 10).take 2),
      leNat ((page.toList.drop 12).take 2), leNat ((page.toList.drop 14).take 2),
      leNat ((page.toList.drop 16).take 2), leNat ((page.toList.drop 18).take 2)⟩ ∧
    parsePostgresPageHeader (.ofBytes page.toList) = .ok (pageHeader page) := by
  have hlen : 20 ≤ page.toList.length := by
    rw [page.toList_length]
    decide
  rw [pageHeader, parsePostgresPageHeader_ok hlen]
  exact ⟨rfl, rfl⟩

theorem parsePostgresPageHeader_page :
    parsePostgresPageHeader (.ofBytes page.toList) = .ok (pageHeader page) := (pageHeader_eq page).2

theorem selectNewValidPage_page (lsn : ℕ) (blockNo : ℕ) (blocks : List ℕ) :
    selectNewValidPage lsn page.toList blockNo blocks =
      (validOrNew page, if isSelected lsn page then blocks ++ [blockNo] else blocks) := by
  rw [selectNewValidPage, parsePostgresPageHeader_page]
  cases hv : (pageHeader page).isValid <;> cases hn : (pageHeader page).isNew <;>
    simp [validOrNew, isSelected, hv, hn]

/-- The block numbers a scan selects, in increasing order. -/
def selectedBlocks (lsn : ℕ) (pages : List Page) : List ℕ :=
  ((numbered 0 pages).filter fun b => isSelected lsn b.2).map Prod.fst

theorem mem_selectedBlocks {b : ℕ} :
    b ∈ selectedBlocks lsn pages ↔ ∃ page, pages[b]? = some page ∧ isSelected lsn page = true := by
  simp only [selectedBlocks, numbered, mem_map, mem_filter]
  constructor
  · rintro ⟨p, ⟨⟨q, hq, rfl⟩, hsel⟩, rfl⟩
    exact ⟨q.1, mem_zipIdx_iff_getElem?.mp hq, hsel⟩
  · rintro ⟨page, hpage, hsel⟩
    exact ⟨(b, page), ⟨⟨(page, b), mk_mem_zipIdx_iff_getElem?.mpr hpage, rfl⟩, hsel⟩, rfl⟩

theorem lt_of_mem_selectedBlocks {b : ℕ} (h : b ∈ selectedBlocks lsn pages) : b < pages.length := by
  obtain ⟨page, hpage, -⟩ := mem_selectedBlocks.mp h
  exact (List.getElem?_eq_some_iff.mp hpage).1

theorem fullScan_pages (pages : List Page) (i : ℕ) (blocks : List ℕ)
    (hall : ∀ page ∈ pages, validOrNew page = true) (hlt : i + pages.length < 2 ^ 32) :
    fullScan lsn (.ofBytes (joinBlocks pages)) i blocks =
      .ok (blocks ++ ((numbered i pages).filter fun b => isSelected lsn b.2).map Prod.fst) := by
  induction pages generalizing i blocks with
  | nil =>
    have hread : (Reader.ofBytes (joinBlocks ([] : List Page))).readFull databasePageSize =
        .error .eof := rfl
    rw [fullScan]
    split
    · rename_i e he
      cases hread.symm.trans he
      simp
    · rename_i pageBytes rest he
      cases hread.symm.trans he
  | cons page pages ih =>
    rw [forall_mem_cons] at hall
    rw [length_cons] at hlt
    have hread : (Reader.ofBytes (joinBlocks (page :: pages))).readFull databasePageSize =
        .ok (page.toList, .ofBytes (joinBlocks pages)) :=
      Reader.readFull_append page.toList_length .eof
    have hnext : (i + 1) % 2 ^ 32 = i + 1 := Nat.mod_eq_of_lt (by omega)
    rw [fullScan]
    split
    · rename_i e he
      cases hread.symm.trans he
    · rename_i pageBytes rest he
      cases hread.symm.trans he
      rw [selectNewValidPage_page, hall.1]
      dsimp only
      rw [hnext, ih (i + 1) _ hall.2 (by omega), numbered_cons]
      cases hsel : isSelected lsn page <;> simp [hsel]

theorem fullScanInitialize_pages (hall : ∀ page ∈ pages, validOrNew page = true) (hlt : pages.length < 2 ^ 32) :
    fullScanInitialize lsn (.ofBytes (joinBlocks pages)) = .ok (selectedBlocks lsn pages) := by
  rw [fullScanInitialize, fullScan_pages pages 0 [] hall (by omega)]
  rfl

theorem pageHeader_emptyPage : pageHeader emptyPage = ⟨0, 0, 0, 0, 0, 0, 0, 0⟩ := (pageHeader_eq _).1

theorem isSelected_emptyPage (lsn : ℕ) : isSelected lsn emptyPage = true := by
  rw [isSelected, pageHeader_emptyPage]
  rfl

theorem validOrNew_emptyPage : validOrNew emptyPage = true := by
  rw [validOrNew, pageHeader_emptyPage]
  rfl

/-- The header of a valid page without items. -/
def filledHeader (lsn checksum : UInt8) : Bytes :=
  [0, 0, 0, 0, lsn, 0, 0, 0, checksum, 0, 0, 0, 24, 0, 0, 32, 0, 32, 4, 32]

/-- A page with that header and a body of equal bytes; the checksum is not made from them. -/
def filledPage (lsn checksum body : UInt8) : Page :=
  ⟨filledHeader lsn checksum ++ replicate 8172 body, length_append.trans (congrArg (20 + ·) length_replicate)⟩

theorem pageHeader_filledPage (lsn checksum body : UInt8) :
    pageHeader (filledPage lsn checksum body) = ⟨0, lsn.toNat, checksum.toNat, 0, 24, 8192, 8192, 8196⟩ := by
  rw [(pageHeader_eq _).1, show (filledPage lsn checksum body).toList = filledHeader lsn checksum ++ _ from rfl]
  generalize replicate 8172 body = rest
  simp [filledHeader, leNat]

end WalG.Backup
