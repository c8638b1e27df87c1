import WalG.Backup.PageReader
import WalG.PageFile.DecoderLoops

/-! # Verifying the checksums of pages

The verifier reads pages from a stream, a whole file or an increment, and compares the checksum that
each page carries with the one that its bytes and its block number give.
-/
namespace WalG.Backup
open Foundation PageFile List

section Checksum

def nSums : ℕ := 32
def fnvPrime : UInt32 := 16777619
def pdChecksumOffset : ℕ := 8

def checksumBaseOffsets : List UInt32 :=
  [0x5B1F36E9, 0xB8525960, 0x02AB50AA, 0x1DE66D2A, 0x79FF467A, 0x9BB9F8A3, 0x217E7CD2, 0x83E13D2C,
    0xF8D4474F, 0xE39EB970, 0x42C6AE16, 0x993216FA, 0x7B093B5D, 0x98DAFF3C, 0xF718902A, 0x0B1C9CDB,
    0xE58F764B, 0x187636BC, 0x5D7B3BB1, 0xE73DE7DE, 0x92BEC979, 0xCCA6C0B2, 0x304A0979, 0x85AA43D4,
    0x783125BB, 0x6CA8EAA2, 0xE407EAC6, 0x4B5CFC3E, 0x9FBF8C76, 0x15CA20BE, 0xF2CA9FD3, 0x959BD756]

def calculateSum (checksum value : UInt32) : UInt32 :=
  let tmp := checksum ^^^ value
  (tmp * fnvPrime) ^^^ (tmp >>> 17)

/-- One row of the page: a word for each of the parallel sums. -/
def checksummableRow (page : Bytes) (i : ℕ) : List UInt32 :=
  (range nSums).map fun j =>
    .ofNat (leNat ((page.drop ((i * nSums + j) * sizeofInt32)).take sizeofInt32))

/-- The sums over all rows and two rows of zeros, folded together. -/
def pgChecksumBlock (page : Bytes) : UInt32 :=
  let rows := (range (databasePageSize / (nSums * sizeofInt32))).map (checksummableRow page)
  let zeroRows := replicate 2 (replicate nSums 0)
  ((rows ++ zeroRows).foldl (zipWith calculateSum) checksumBaseOffsets).foldl (· ^^^ ·) 0

/-- The checksum of the page without the two bytes of its own checksum. -/
def pgChecksumPage (blockNo : UInt32) (page : Bytes) : UInt16 :=
  let page := (page.set pdChecksumOffset 0).set (pdChecksumOffset + 1) 0
  let checksum := pgChecksumBlock page ^^^ blockNo
  .ofNat (checksum.toNat % 65535 + 1)

end Checksum

section Verifier

inductive VerifyError where
  | file (e : FileError)
  | relFile (e : RelFileError)
  deriving DecidableEq, Repr

/-- The block number that the checksum covers counts the blocks of the segments before. -/
def isPageCorrupted (path : Text) (blockNo : ℕ) (page : Bytes) : Except VerifyError Bool :=
  match parsePostgresPageHeader (.ofBytes page) with
  | .error e => .error (.file (.read e))
  | .ok pageHeader =>
    if pageHeader.isNew then .ok false
    else if pageHeader.pdChecksum = 0 then .ok false
    else
      match getRelFileIDFrom path with
      | .error e => .error (.relFile e)
      | .ok relFileID =>
        let segmentBlockOffset : UInt32 := .ofNat (relFileID * blocksInRelFile)
        .ok ((pgChecksumPage (segmentBlockOffset + .ofNat blockNo) page).toNat ≠ pageHeader.pdChecksum)

def verifySinglePage (path : Text) (blockNo : ℕ) (pageBlocks : Reader) : Except VerifyError (Bool × Reader) :=
  match PageFile.readFull pageBlocks databasePageSize with
  | .error e => .error (.file e)
  | .ok (page, pageBlocks) => (isPageCorrupted path blockNo page).map (·, pageBlocks)

/-- The verdicts of the loop; the end of the pages, before all block numbers are used, ends it in order. -/
def verifyBlocks (path : Text) : List ℕ → Reader → Except VerifyError (List (ℕ × Bool))
  | [], _ => .ok []
  | blockNo :: blockNumbers, pageBlocks =>
    match verifySinglePage path blockNo pageBlocks with
    | .error e => if e = .file (.read .eof) then .ok [] else .error e
    | .ok (corrupted, pageBlocks) => (verifyBlocks path blockNumbers pageBlocks).map ((blockNo, corrupted) :: ·)

def ignoredFileNames : List Text := ["pg_internal.init".toList]

/-- The name and the size of a file. -/
structure PagedFileInfo where
  name : Text
  size : ℕ

def PagedFileInfo.isVerified (fileInfo : PagedFileInfo) (path : Text) : Bool :=
  decide (fileInfo.name ∉ ignoredFileNames) && isPagedFile fileInfo.size path

/-- The corrupt block numbers, none with an error. -/
def reported : Except VerifyError (List (ℕ × Bool)) → List ℕ × Option VerifyError
  | .error e => ([], some e)
  | .ok verdicts => ((verdicts.filter Prod.snd).map Prod.fst, none)

/-- A file that is not verified is only read to its end. -/
def verifyPageBlocks (path : Text) (fileInfo : PagedFileInfo) (pageBlocks : Reader) (blockNumbers : List ℕ) :
    List ℕ × Option VerifyError :=
  if fileInfo.isVerified path then reported (verifyBlocks path blockNumbers pageBlocks)
  else ([], if pageBlocks.ending = .eof then none else some (.file (.read pageBlocks.ending)))

def verifyPagedFileIncrement (path : Text) (fileInfo : PagedFileInfo) (increment : Reader) :
    List ℕ × Option VerifyError :=
  match getIncrementHeaderFields increment with
  | .error e => ([], some (.file e))
  | .ok (h, increment) =>
    match deltaBlockNumbers h.diffMap h.diffBlockCount 0 with
    | .error e => ([], some (.file e))
    | .ok blockNumbers => verifyPageBlocks path fileInfo increment blockNumbers

def verifyPagedFileBase (path : Text) (fileInfo : PagedFileInfo) (pagedFile : Reader) : List ℕ × Option VerifyError :=
  verifyPageBlocks path fileInfo pagedFile (range (fileInfo.size / databasePageSize % 2 ^ 32))

end Verifier

section Verdicts

variable (path : Text) (blockNo : ℕ) (page : Page) {blocks : List (ℕ × Page)}

/-- The page carries a checksum that is compared. -/
def needsChecksum (page : Page) : Bool := !(pageHeader page).isNew && decide ((pageHeader page).pdChecksum ≠ 0)

theorem isPageCorrupted_page : isPageCorrupted path blockNo page.toList =
      if needsChecksum page then
        match getRelFileIDFrom path with
        | .error e => .error (.relFile e)
        | .ok relFileID =>
          .ok ((pgChecksumPage (.ofNat (relFileID * blocksInRelFile) + .ofNat blockNo) page.toList).toNat ≠
            (pageHeader page).pdChecksum)
      else .ok false := by
  rw [isPageCorrupted, parsePostgresPageHeader_page]
  cases hnew : (pageHeader page).isNew with
  | true => simp [needsChecksum, hnew]
  | false =>
    by_cases hzero : (pageHeader page).pdChecksum = 0
    · simp [needsChecksum, hnew, hzero]
    · have hneeds : needsChecksum page = true := by simp [needsChecksum, hnew, hzero]
      rw [if_pos hneeds]
      dsimp only
      rw [hnew, if_neg Bool.false_ne_true, if_neg hzero]

def corrupted (block : ℕ × Page) : Bool := isPageCorrupted path block.1 block.2.toList = .ok true

/-- The verdicts on pages under their block numbers. -/
def verdicts : List (ℕ × Page) → Except VerifyError (List (ℕ × Bool))
  | [] => .ok []
  | block :: blocks =>
    match isPageCorrupted path block.1 block.2.toList with
    | .error e => .error e
    | .ok verdict => (verdicts blocks).map ((block.1, verdict) :: ·)

theorem isPageCorrupted_ne_eof : isPageCorrupted path blockNo page.toList ≠ .error (.file (.read .eof)) := by
  rw [isPageCorrupted_page]
  split_ifs
  · cases getRelFileIDFrom path <;> simp
  · simp

/-- The loop over a stream of pages; block numbers without a page are not looked at. -/
theorem verifyBlocks_pages (blocks : List (ℕ × Page)) (extra : List ℕ) :
    verifyBlocks path (blocks.map Prod.fst ++ extra) (.ofBytes (joinBlocks (blocks.map Prod.snd))) =
      verdicts path blocks := by
  induction blocks with
  | nil =>
    cases extra with
    | nil => rfl
    | cons blockNo extra => rfl
  | cons block blocks ih =>
    have hread : PageFile.readFull (.ofBytes (joinBlocks ((block :: blocks).map Prod.snd))) databasePageSize =
        .ok (block.2.toList, .ofBytes (joinBlocks (blocks.map Prod.snd))) :=
      PageFile.readFull_append block.2.toList_length .eof
    rw [map_cons, cons_append, verifyBlocks, verifySinglePage, hread, verdicts]
    cases hverdict : isPageCorrupted path block.1 block.2.toList with
    | error e =>
      have hne : e ≠ .file (.read .eof) := fun he => isPageCorrupted_ne_eof path block.1 block.2 (he ▸ hverdict)
      dsimp only
      rw [hverdict]
      exact if_neg hne
    | ok verdict =>
      dsimp only
      rw [hverdict, ← ih]
      rfl

theorem verdicts_of_ok (h : ∀ block ∈ blocks, ∃ verdict, isPageCorrupted path block.1 block.2.toList = .ok verdict) :
    verdicts path blocks = .ok (blocks.map fun block => (block.1, corrupted path block)) := by
  induction blocks with
  | nil => rfl
  | cons block blocks ih =>
    obtain ⟨⟨verdict, hverdict⟩, h⟩ := forall_mem_cons.mp h
    have hcorrupted : corrupted path block = verdict := by
      rw [corrupted, hverdict]
      cases verdict <;> rfl
    rw [verdicts, hverdict, ih h, map_cons, hcorrupted]
    rfl

theorem verdicts_of_error (h : ∃ block ∈ blocks, ∃ e, isPageCorrupted path block.1 block.2.toList = .error e) :
    ∃ e, verdicts path blocks = .error e := by
  induction blocks with
  | nil =>
    obtain ⟨block, hblock, -⟩ := h
    cases hblock
  | cons block blocks ih =>
    rw [verdicts]
    cases hverdict : isPageCorrupted path block.1 block.2.toList with
    | error e => exact ⟨e, rfl⟩
    | ok verdict =>
      obtain ⟨block', hblock', e, he⟩ := h
      rcases mem_cons.mp hblock' with rfl | hmem
      · cases hverdict.symm.trans he
      · obtain ⟨e', he'⟩ := ih ⟨block', hmem, e, he⟩
        exact ⟨e', by rw [he']; rfl⟩

theorem all_ok_or_error (blocks : List (ℕ × Page)) :
    (∀ block ∈ blocks, ∃ verdict, isPageCorrupted path block.1 block.2.toList = .ok verdict) ∨
      ∃ block ∈ blocks, ∃ e, isPageCorrupted path block.1 block.2.toList = .error e := by
  by_contra! h
  obtain ⟨⟨block, hblock, hnot⟩, hall⟩ := h
  cases hverdict : isPageCorrupted path block.1 block.2.toList with
  | error e => exact hall block hblock e hverdict
  | ok verdict => exact hnot verdict hverdict

theorem reported_verdicts_of_ok
    (h : ∀ block ∈ blocks, ∃ verdict, isPageCorrupted path block.1 block.2.toList = .ok verdict) :
    reported (verdicts path blocks) = ((blocks.filter (corrupted path)).map Prod.fst, none) := by
  rw [verdicts_of_ok path h, reported, filter_map, map_map]
  rfl

theorem not_corrupted_of_error {block : ℕ × Page} {e : VerifyError}
    (h : isPageCorrupted path block.1 block.2.toList = .error e) (block' : ℕ × Page) :
    corrupted path block' = false := by
  rw [isPageCorrupted_page] at h
  rw [corrupted, isPageCorrupted_page]
  cases hid : getRelFileIDFrom path with
  | error e' =>
    split_ifs <;> simp
  | ok relFileID =>
    rw [hid] at h
    split_ifs at h

end Verdicts

section Endings

variable {path : Text}

/-- The errors that are runtime panics of slice expressions. -/
def VerifyError.isPanic (e : VerifyError) : Prop := e = .file .indexOutOfRange ∨ e = .relFile .indexOutOfRange

theorem getRelFileIDFrom_ne_panic {size : ℕ} (h : isPagedFile size path = true) :
    getRelFileIDFrom path ≠ .error .indexOutOfRange := by
  rw [isPagedFile, Bool.and_eq_true] at h
  obtain ⟨⟨digits, segment⟩, hmatch⟩ := Option.isSome_iff_exists.mp h.2
  rw [getRelFileIDFrom, hmatch]
  cases segment with
  | nil => simp
  | cons c segment =>
    dsimp only
    cases atoi segment <;> simp

theorem isPageCorrupted_error {blockNo : ℕ} {page : Bytes} {e : VerifyError}
    (h : isPageCorrupted path blockNo page = .error e) :
    (∃ e', e = .file (.read e')) ∨ ∃ e', getRelFileIDFrom path = .error e' ∧ e = .relFile e' := by
  unfold isPageCorrupted at h
  cases hheader : parsePostgresPageHeader (.ofBytes page) with
  | error e' =>
    rw [hheader] at h
    exact .inl ⟨e', (Except.error.inj h).symm⟩
  | ok header =>
    rw [hheader] at h
    dsimp only at h
    split_ifs at h
    cases hid : getRelFileIDFrom path with
    | error e' =>
      rw [hid] at h
      exact .inr ⟨e', rfl, (Except.error.inj h).symm⟩
    | ok relFileID =>
      rw [hid] at h
      cases h

theorem verifyBlocks_error {blockNumbers : List ℕ} {r : Reader} {e : VerifyError}
    (h : verifyBlocks path blockNumbers r = .error e) :
    (∃ e', e = .file (.read e')) ∨ ∃ e', getRelFileIDFrom path = .error e' ∧ e = .relFile e' := by
  induction blockNumbers generalizing r with
  | nil => cases h
  | cons blockNo blockNumbers ih =>
    rw [verifyBlocks, verifySinglePage] at h
    cases hread : PageFile.readFull r databasePageSize with
    | error e' =>
      obtain ⟨e'', rfl⟩ := readFull_error hread
      rw [hread] at h
      dsimp only at h
      split_ifs at h
      exact .inl ⟨e'', (Except.error.inj h).symm⟩
    | ok result =>
      rw [hread] at h
      dsimp only at h
      cases hpage : isPageCorrupted path blockNo result.1 with
      | error e' =>
        rw [hpage] at h
        dsimp only [Except.map] at h
        split_ifs at h
        cases h
        exact isPageCorrupted_error hpage
      | ok verdict =>
        rw [hpage] at h
        dsimp only [Except.map] at h
        cases hrest : verifyBlocks path blockNumbers result.2 with
        | error e' =>
          rw [hrest] at h
          cases h
          exact ih hrest
        | ok verdicts =>
          rw [hrest] at h
          cases h

theorem eq_nil_of_eof {data : Bytes} {n : ℕ} (h : PageFile.readFull (.ofBytes data) n = .error (.read .eof)) :
    data = [] := by
  by_contra hnil
  rw [PageFile.readFull, Reader.readFull, Reader.ofBytes, if_neg hnil, if_pos rfl] at h
  split_ifs at h <;> cases h

theorem verifyBlocks_ok {blockNumbers : List ℕ} {data : Bytes} {verdicts : List (ℕ × Bool)}
    (h : verifyBlocks path blockNumbers (.ofBytes data) = .ok verdicts) : verdicts.length = blockNumbers.length ∨
      ∃ pages : List Page, data = joinBlocks pages ∧ pages.length = verdicts.length ∧
        verdicts.length < blockNumbers.length := by
  induction blockNumbers generalizing data verdicts with
  | nil =>
    cases h
    exact .inl rfl
  | cons blockNo blockNumbers ih =>
    rw [verifyBlocks, verifySinglePage] at h
    rcases readFull_spec (.ofBytes data) databasePageSize with ⟨page, r₁, hread, -⟩ | ⟨⟨e, hread⟩, hlt⟩
    · obtain ⟨hpage, hdata, hending⟩ := readFull_ok_iff.mp hread
      obtain ⟨rest, ending⟩ := r₁
      obtain rfl : ending = .eof := hending
      rw [hread] at h
      dsimp only at h
      cases hcorrupted : isPageCorrupted path blockNo page with
      | error e =>
        rw [hcorrupted] at h
        dsimp only [Except.map] at h
        split_ifs at h with heof
        exact absurd (heof ▸ hcorrupted) (isPageCorrupted_ne_eof path blockNo ⟨page, hpage⟩)
      | ok verdict =>
        rw [hcorrupted] at h
        dsimp only [Except.map] at h
        cases hrest : verifyBlocks path blockNumbers ⟨rest, .eof⟩ with
        | error e =>
          rw [hrest] at h
          cases h
        | ok verdicts' =>
          rw [hrest] at h
          cases h
          rcases ih hrest with hall | ⟨pages, rfl, hpages, hlt⟩
          · exact .inl (congrArg Nat.succ hall)
          · exact .inr ⟨⟨page, hpage⟩ :: pages, hdata, congrArg Nat.succ hpages, Nat.succ_lt_succ hlt⟩
    · rw [hread] at h
      dsimp only at h
      split_ifs at h with heof
      cases h
      obtain rfl : e = .eof := by simpa using heof
      exact .inr ⟨[], eq_nil_of_eof hread, rfl, Nat.succ_pos _⟩

end Endings

end WalG.Backup
