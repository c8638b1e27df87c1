import WalG.Backup.IncrementRoundTrip
import WalG.Backup.PageVerifier

/-! # Verifying an increment and the whole file

A page of an increment and the same page of the file get one verdict, since both are verified under
the block number of the page in the file.
-/
namespace WalG.Backup
open Foundation PageFile List

section Stream

theorem advanceFileReader_past {pages : List Page} {b : ℕ} (hb : pages.length ≤ b) :
    advanceFileReader (joinBlocks pages) b = .error .eof := by
  rw [advanceFileReader, drop_joinBlocks, drop_eq_nil_of_le hb]
  rfl

def pagesAt (pages : List Page) (blocks : List ℕ) : List (ℕ × Page) := blocks.map fun b => (b, pages.getD b emptyPage)

theorem drainedPages_pages {pages : List Page} {blocks extra : List ℕ} (hlt : ∀ b ∈ blocks, b < pages.length)
    (hextra : ∀ b ∈ extra, pages.length ≤ b) :
    drainedPages (joinBlocks pages) (blocks ++ extra) =
      .ofBytes (joinBlocks ((pagesAt pages blocks).map Prod.snd)) := by
  induction blocks with
  | nil =>
    cases extra with
    | nil => rfl
    | cons b extra =>
      rw [nil_append, drainedPages, advanceFileReader_past (hextra b mem_cons_self)]
      rfl
  | cons b blocks ih =>
    obtain ⟨hb, hlt⟩ := forall_mem_cons.mp hlt
    have hcons : pagesAt pages (b :: blocks) = (b, pages[b]) :: pagesAt pages blocks := by simp [pagesAt, hb]
    rw [cons_append, drainedPages, advanceFileReader_pages hb, ih hlt, hcons]
    rfl

theorem filter_lt_append {blocks : List ℕ} (h : blocks.Pairwise (· < ·)) (n : ℕ) :
    blocks = blocks.filter (· < n) ++ blocks.filter (n ≤ ·) := by
  induction blocks with
  | nil => rfl
  | cons b blocks ih =>
    rw [pairwise_cons] at h
    by_cases hb : b < n
    · rw [filter_cons_of_pos (by simpa using hb), filter_cons_of_neg (by simpa using hb), cons_append, ← ih h.2]
    · have hlow : blocks.filter (· < n) = [] := by
        rw [filter_eq_nil_iff]
        intro c hc
        have := h.1 c hc
        simp only [decide_eq_true_eq]
        omega
      have hhigh : blocks.filter (n ≤ ·) = blocks := by
        rw [filter_eq_self]
        intro c hc
        have := h.1 c hc
        simp only [decide_eq_true_eq]
        omega
      rw [filter_cons_of_neg (by simpa using hb), filter_cons_of_pos (by simpa using hb), hlow, hhigh, nil_append]

theorem validOrNew_of_fullScan {lsn : ℕ} {pages : List Page} {i : ℕ} {blocks blocks' : List ℕ}
    (h : fullScan lsn (.ofBytes (joinBlocks pages)) i blocks = .ok blocks') :
    ∀ page ∈ pages, validOrNew page = true := by
  induction pages generalizing i blocks with
  | nil => exact forall_mem_nil _
  | cons page pages ih =>
    have hread : (Reader.ofBytes (joinBlocks (page :: pages))).readFull databasePageSize =
        .ok (page.toList, .ofBytes (joinBlocks pages)) :=
      Reader.readFull_append page.toList_length .eof
    rw [fullScan] at h
    split at h
    · rename_i e he
      rw [hread] at he
      cases he
    · rename_i pageBytes rest he
      rw [hread] at he
      cases he
      rw [selectNewValidPage_page] at h
      cases hvalid : validOrNew page with
      | false =>
        rw [hvalid] at h
        cases h
      | true =>
        rw [hvalid] at h
        exact forall_mem_cons.mpr ⟨hvalid, ih h⟩

/-- The reader picks increasing block numbers; none is past the end of the file, except for the one whose
successor wraps to zero. -/
theorem start_blocks {pages : List Page} (hlen : pages.length ≤ blocksInRelFile) {lsn size : ℕ} {bitmap : Option Bitmap}
    {reader : IncrementalPageReader} (hbits : ∀ bits ∈ bitmap, ∀ b ∈ bits, b < 2 ^ 32)
    (h : IncrementalPageReader.start (joinBlocks pages) (pages.length * databasePageSize) lsn bitmap =
      .ok (reader, size)) :
    reader = ⟨joinBlocks pages, diffMapHeader (pages.length * databasePageSize) reader.blocks, reader.blocks⟩ ∧
      reader.blocks.Pairwise (· < ·) ∧ ∀ b ∈ reader.blocks, b < pages.length ∨ b + 1 = 2 ^ 32 := by
  cases bitmap with
  | none =>
    cases hscan : fullScanInitialize lsn (.ofBytes (joinBlocks pages)) with
    | error e =>
      simp only [IncrementalPageReader.start, hscan] at h
      cases h
    | ok blocks =>
      simp only [IncrementalPageReader.start, hscan, Except.ok.injEq, Prod.mk.injEq] at h
      obtain ⟨rfl, -⟩ := h
      have hpages : pages.length < 2 ^ 32 := lt_of_le_of_lt hlen (by decide)
      rw [fullScanInitialize_pages (validOrNew_of_fullScan hscan) hpages] at hscan
      cases hscan
      exact ⟨rfl, selectedBlocks_increasing lsn pages, fun b hb => .inl (lt_of_mem_selectedBlocks hb)⟩
  | some bits =>
    obtain ⟨rfl, -⟩ := h
    refine ⟨rfl, deltaBitmapInitialize_increasing _ _, fun b hb => ?_⟩
    have hfits := mem_takeWhile_imp hb
    have hlt := hbits bits rfl b ((Finset.mem_sort _).mp ((takeWhile_sublist _).subset hb))
    rw [decide_eq_true_eq, Nat.mul_le_mul_right_iff (by decide)] at hfits
    omega

end Stream

section Agreement

variable {pages : List Page} (lsn : UInt8) (path : Text) {blocks : List ℕ}

theorem filter_pagesAt (f : ℕ × Page → Bool) (blocks : List ℕ) :
    ((pagesAt pages blocks).filter f).map Prod.fst = blocks.filter fun b => f (b, pages.getD b emptyPage) := by
  rw [pagesAt, filter_map, map_map]
  exact map_id _

/-- The blocks of a list that the file has. -/
def inside (pages : List Page) (blocks : List ℕ) : List ℕ := blocks.filter (· < pages.length)

theorem lt_of_mem_inside : ∀ b ∈ inside pages blocks, b < pages.length := by
  intro b hb
  simpa using (mem_filter.mp hb).2

/-- The verdicts on some pages of a file report what those on all its pages report of them. -/
theorem reported_pagesAt (hinc : blocks.Pairwise (· < ·)) :
    (reported (verdicts path (pagesAt pages (inside pages blocks)))).1 =
        (reported (verdicts path (pagesAt pages (range pages.length)))).1.filter (· ∈ blocks) ∧
      ((reported (verdicts path (pagesAt pages (range pages.length)))).2 = none →
        (reported (verdicts path (pagesAt pages (inside pages blocks)))).2 = none) := by
  have hsub : ∀ block ∈ pagesAt pages (inside pages blocks), block ∈ pagesAt pages (range pages.length) := by
    intro block hblock
    obtain ⟨b, hb, rfl⟩ := mem_map.mp hblock
    exact mem_map.mpr ⟨b, mem_range.mpr (lt_of_mem_inside b hb), rfl⟩
  rcases all_ok_or_error path (pagesAt pages (range pages.length)) with hok | ⟨block, hblock, e, he⟩
  · have hok' : ∀ block ∈ pagesAt pages (inside pages blocks),
        ∃ verdict, isPageCorrupted path block.1 block.2.toList = .ok verdict :=
      fun block hblock => hok block (hsub block hblock)
    rw [reported_verdicts_of_ok path hok, reported_verdicts_of_ok path hok']
    refine ⟨?_, fun _ => rfl⟩
    have hmem : inside pages blocks = (range pages.length).filter (· ∈ blocks) := by
      refine Pairwise.eq_of_mem_iff (hinc.filter _) (pairwise_lt_range.filter _) fun b => ?_
      rw [inside, mem_filter, mem_filter, mem_range, decide_eq_true_eq, decide_eq_true_eq, and_comm]
    rw [filter_pagesAt, filter_pagesAt, filter_filter, hmem, filter_filter]
    exact filter_congr fun b _ => Bool.and_comm _ _
  · obtain ⟨e', he'⟩ := verdicts_of_error path ⟨block, hblock, e, he⟩
    rw [he']
    refine ⟨?_, nofun⟩
    rcases all_ok_or_error path (pagesAt pages (inside pages blocks)) with hok' | herror
    · rw [reported_verdicts_of_ok path hok', filter_eq_nil_iff.mpr]
      · rfl
      · intro block' _
        rw [not_corrupted_of_error path he]
        decide
    · obtain ⟨e'', he''⟩ := verdicts_of_error path herror
      rw [he'']
      rfl

theorem pagesAt_range : (pagesAt pages (range pages.length)).map Prod.snd = pages := by
  rw [pagesAt, map_map]
  refine ext_getElem (by simp) fun i hi _ => ?_
  have hlt : i < pages.length := by simpa using hi
  simp [hlt]

theorem pagesAt_fst (blocks : List ℕ) : (pagesAt pages blocks).map Prod.fst = blocks := by
  rw [pagesAt, map_map]
  exact map_id _

theorem getIncrementHeaderFields_diffMapHeader {fileSize : ℕ} (hsize : fileSize < 2 ^ 64)
    (hcount : blocks.length < 2 ^ 30) (rest : Bytes) (e : ReadError) :
    getIncrementHeaderFields ⟨diffMapHeader fileSize blocks ++ rest, e⟩ =
      .ok (⟨fileSize, blocks.length, leTable sizeofInt32 blocks⟩, ⟨rest, e⟩) := by
  have hsize' : fileSize % 256 ^ sizeofInt64 = fileSize := Nat.mod_eq_of_lt hsize
  have hcount' : blocks.length % 256 ^ sizeofInt32 = blocks.length :=
    Nat.mod_eq_of_lt (lt_trans hcount (by decide))
  have hlen : (leTable sizeofInt32 blocks).length = blocks.length * sizeofInt32 % 2 ^ 32 := by
    rw [leTable_length]
    simp only [sizeofInt32]
    omega
  simp only [getIncrementHeaderFields, diffMapHeader, append_assoc, bind, Except.bind,
    readIncrementFileHeader_append, readField_append, hsize', hcount', PageFile.readFull_append hlen]
  rfl

theorem deltaBlockNumbers_leTable (hcount : blocks.length < 2 ^ 30) (hlt : ∀ b ∈ blocks, b < 2 ^ 32) :
    deltaBlockNumbers (leTable sizeofInt32 blocks) blocks.length 0 = .ok blocks := by
  have hlen : (leTable sizeofInt32 blocks).length = blocks.length * sizeofInt32 := leTable_length _ _
  have htable : (leTable sizeofInt32 blocks).length < 2 ^ 32 := by
    rw [hlen]
    simp only [sizeofInt32]
    omega
  rw [deltaBlockNumbers_of_le htable _ _ (by rw [hlen, Nat.zero_add])]
  refine congrArg Except.ok (ext_getElem (by simp) fun i hi hi' => ?_)
  rw [getElem_map, getElem_range', Nat.zero_add, Nat.one_mul]
  exact blockEntry_leTable hlt (getElem?_eq_getElem hi')

theorem length_of_picked (hinc : blocks.Pairwise (· < ·))
    (hblocks : ∀ b ∈ blocks, b < pages.length ∨ b + 1 = 2 ^ 32) : blocks.length ≤ pages.length + 1 := by
  have hsplit := congrArg length (filter_lt_append hinc pages.length)
  have hinside : (inside pages blocks).length ≤ pages.length := length_le_of_increasing (hinc.filter _) lt_of_mem_inside
  have hpast : ∀ b ∈ blocks.filter (pages.length ≤ ·), b + 1 = 2 ^ 32 := by
    intro b hb
    obtain ⟨hmem, hle⟩ := mem_filter.mp hb
    exact (hblocks b hmem).resolve_left (by simpa using hle)
  have hextra : (blocks.filter (pages.length ≤ ·)).length ≤ 1 := by
    have hinc' := hinc.filter (pages.length ≤ ·)
    revert hpast hinc'
    generalize blocks.filter (pages.length ≤ ·) = extra
    intro hpast hinc'
    rcases extra with _ | ⟨a, _ | ⟨b, extra⟩⟩
    · exact Nat.zero_le _
    · exact le_rfl
    · have hab : a < b := (pairwise_cons.mp hinc').1 b mem_cons_self
      have ha := hpast a mem_cons_self
      have hb := hpast b (mem_cons_of_mem _ mem_cons_self)
      omega
  rw [length_append] at hsplit
  unfold inside at hinside
  omega

/-- The loop over an increment and over the file, both as verdicts on pages of the file. -/
theorem verifyPageBlocks_pagesAt (fileInfo : PagedFileInfo) (blocks extra : List ℕ) :
    verifyPageBlocks path fileInfo (.ofBytes (joinBlocks ((pagesAt pages blocks).map Prod.snd))) (blocks ++ extra) =
      if fileInfo.isVerified path then reported (verdicts path (pagesAt pages blocks)) else ([], none) := by
  have hloop := verifyBlocks_pages path (pagesAt pages blocks) extra
  rw [pagesAt_fst] at hloop
  rw [verifyPageBlocks, hloop]
  rfl

theorem stream_of_picked (hinc : blocks.Pairwise (· < ·)) (next : Bytes) :
    IncrementalPageReader.stream ⟨joinBlocks pages, next, blocks⟩ =
      ⟨next ++ joinBlocks ((pagesAt pages (inside pages blocks)).map Prod.snd), .eof⟩ := by
  have hdrained := @drainedPages_pages pages (inside pages blocks) (blocks.filter (pages.length ≤ ·)) lt_of_mem_inside
    fun b hb => by simpa using (mem_filter.mp hb).2
  rw [inside, ← filter_lt_append hinc] at hdrained
  rw [IncrementalPageReader.stream, hdrained]
  rfl

theorem verifyPagedFileBase_pages (name : Text) (hlen : pages.length < 2 ^ 32) :
    verifyPagedFileBase path ⟨name, pages.length * databasePageSize⟩ (.ofBytes (joinBlocks pages)) =
      if PagedFileInfo.isVerified ⟨name, pages.length * databasePageSize⟩ path then
        reported (verdicts path (pagesAt pages (range pages.length))) else ([], none) := by
  have hloop := @verifyPageBlocks_pagesAt pages path ⟨name, pages.length * databasePageSize⟩
    (range pages.length) []
  have hrange : pages.length * databasePageSize / databasePageSize % 2 ^ 32 = pages.length := by
    rw [Nat.mul_div_cancel _ (by decide), Nat.mod_eq_of_lt hlen]
  rw [pagesAt_range, append_nil] at hloop
  rw [verifyPagedFileBase, hrange]
  exact hloop

theorem verifyPagedFileIncrement_picked (name : Text)
    (hsize : pages.length * databasePageSize < 2 ^ 64) (hinc : blocks.Pairwise (· < ·))
    (hcount : blocks.length < 2 ^ 30) (hlt : ∀ b ∈ blocks, b < 2 ^ 32) :
    verifyPagedFileIncrement path ⟨name, pages.length * databasePageSize⟩ (IncrementalPageReader.stream
        ⟨joinBlocks pages, diffMapHeader (pages.length * databasePageSize) blocks, blocks⟩) =
      if PagedFileInfo.isVerified ⟨name, pages.length * databasePageSize⟩ path then
        reported (verdicts path (pagesAt pages (inside pages blocks))) else ([], none) := by
  have hloop := @verifyPageBlocks_pagesAt pages path ⟨name, pages.length * databasePageSize⟩ (inside pages blocks)
    (blocks.filter (pages.length ≤ ·))
  nth_rewrite 2 [inside] at hloop
  rw [← filter_lt_append hinc] at hloop
  rw [stream_of_picked hinc, verifyPagedFileIncrement, getIncrementHeaderFields_diffMapHeader hsize hcount]
  dsimp only
  rw [deltaBlockNumbers_leTable hcount hlt]
  exact hloop

/-- For every segment file of whole pages and every increment that the page reader makes of it, the corrupt blocks
that the increment reports are those that the file reports among the blocks of the increment, in the same order. If
the file is verified without an error, so is the increment. -/
theorem increment_verification_agrees (path name : Text) (pages : List Page) (hlen : pages.length ≤ blocksInRelFile)
    (lsn : ℕ) (bitmap : Option Bitmap) (hbits : ∀ bits ∈ bitmap, ∀ b ∈ bits, b < 2 ^ 32)
    (reader : IncrementalPageReader) (size : ℕ)
    (h : IncrementalPageReader.start (joinBlocks pages) (pages.length * databasePageSize) lsn bitmap =
      .ok (reader, size)) :
    let fileInfo : PagedFileInfo := ⟨name, pages.length * databasePageSize⟩
    let ofIncrement := verifyPagedFileIncrement path fileInfo reader.stream
    let ofFile := verifyPagedFileBase path fileInfo (.ofBytes (joinBlocks pages))
    ofIncrement.1 = ofFile.1.filter (· ∈ reader.blocks) ∧ (ofFile.2 = none → ofIncrement.2 = none) := by
  intro fileInfo ofIncrement ofFile
  obtain ⟨hreader, hinc, hblocks⟩ := start_blocks hlen hbits h
  have hpages : blocksInRelFile + 1 < 2 ^ 30 := by decide
  have hcount : reader.blocks.length < 2 ^ 30 := by
    have := length_of_picked hinc hblocks
    omega
  have hlt : ∀ b ∈ reader.blocks, b < 2 ^ 32 := by
    intro b hb
    have := hblocks b hb
    omega
  have hsize : pages.length * databasePageSize < 2 ^ 64 := by
    unfold databasePageSize
    omega
  have hincrement : ofIncrement = if fileInfo.isVerified path then
      reported (verdicts path (pagesAt pages (inside pages reader.blocks))) else ([], none) := by
    change verifyPagedFileIncrement path fileInfo reader.stream = _
    rw [hreader]
    exact verifyPagedFileIncrement_picked path name hsize hinc hcount hlt
  have hfile : ofFile = if fileInfo.isVerified path then
      reported (verdicts path (pagesAt pages (range pages.length))) else ([], none) :=
    verifyPagedFileBase_pages path name (by omega)
  rw [hincrement, hfile]
  cases fileInfo.isVerified path with
  | false => exact ⟨rfl, fun _ => rfl⟩
  | true => exact reported_pagesAt path hinc

/-- The checksum of a page does not cover its own bytes. -/
theorem pgChecksumPage_filledPage (blockNo : UInt32) (checksum body : UInt8) :
    pgChecksumPage blockNo (filledPage lsn checksum body).toList =
      pgChecksumPage blockNo (filledPage lsn 0 body).toList := by
  have hcleared : ∀ checksum rest, ((filledHeader lsn checksum ++ rest).set pdChecksumOffset 0).set
      (pdChecksumOffset + 1) 0 = filledHeader lsn 0 ++ rest := fun _ _ => rfl
  have hbytes : ∀ checksum, (filledPage lsn checksum body).toList = filledHeader lsn checksum ++ _ := fun _ => rfl
  simp only [pgChecksumPage, hbytes, hcleared]

/-- A checksum other than the one of the page's bytes under the block number. -/
def wrongChecksum (lsn : UInt8) (blockNo : ℕ) : UInt8 :=
  if pgChecksumPage (.ofNat blockNo) (filledPage lsn 0 7).toList = 1 then 2 else 1

def corruptPage (lsn : UInt8) (blockNo : ℕ) : Page := filledPage lsn (wrongChecksum lsn blockNo) 7

theorem wrongChecksum_ne (blockNo : ℕ) : (wrongChecksum lsn blockNo).toNat ≠ 0 ∧
    (pgChecksumPage (.ofNat blockNo) (filledPage lsn 0 7).toList).toNat ≠ (wrongChecksum lsn blockNo).toNat := by
  unfold wrongChecksum
  split_ifs with hone
  · rw [hone]
    decide
  · exact ⟨by decide, fun h => hone (UInt16.toNat_inj.mp h)⟩

theorem isPageCorrupted_corruptPage (blockNo : ℕ) :
    isPageCorrupted "base/13000/16384".toList blockNo (corruptPage lsn blockNo).toList = .ok true := by
  obtain ⟨hzero, hne⟩ := wrongChecksum_ne lsn blockNo
  have hrel : getRelFileIDFrom "base/13000/16384".toList = .ok 0 := by decide
  have hoffset : UInt32.ofNat (0 * blocksInRelFile) + .ofNat blockNo = .ofNat blockNo := UInt32.zero_add _
  rw [isPageCorrupted_page, hrel]
  dsimp only
  rw [hoffset, needsChecksum, corruptPage, pgChecksumPage_filledPage, pageHeader_filledPage]
  simp [PageHeader.isNew, hzero, hne]

/-- Both pages are corrupt, and the increment holds the second one only. -/
theorem increment_verification_agrees_corrupt : let path := "base/13000/16384".toList
    let pages := [corruptPage 1 0, corruptPage 9 1]
    let size := 2 * databasePageSize
    let reader : IncrementalPageReader := ⟨joinBlocks pages, diffMapHeader size [1], [1]⟩
    IncrementalPageReader.start (joinBlocks pages) size 5 (some {1}) =
        .ok (reader, (diffMapHeader size [1]).length + 1 * databasePageSize) ∧
      verifyPagedFileBase path ⟨"16384".toList, size⟩ (.ofBytes (joinBlocks pages)) = ([0, 1], none) ∧
      verifyPagedFileIncrement path ⟨"16384".toList, size⟩ reader.stream = ([1], none) := by
  intro path pages size reader
  have hpages : pages.length = 2 := rfl
  have hblocks : deltaBitmapInitialize size {1} = [1] := by
    rw [deltaBitmapInitialize, Finset.sort_singleton]
    decide
  have hstart : IncrementalPageReader.start (joinBlocks pages) size 5 (some {1}) =
      .ok (reader, (diffMapHeader size [1]).length + 1 * databasePageSize) := by
    simp only [IncrementalPageReader.start, hblocks, length_singleton, reader]
  have hfile : verifyPagedFileBase path ⟨"16384".toList, size⟩ (.ofBytes (joinBlocks pages)) = ([0, 1], none) := by
    have hbase := @verifyPagedFileBase_pages pages path "16384".toList (by rw [hpages]; decide)
    have hverified : PagedFileInfo.isVerified ⟨"16384".toList, size⟩ path = true := by decide
    have hpair : ∀ first second : Page, isPageCorrupted path 0 first.toList = .ok true →
        isPageCorrupted path 1 second.toList = .ok true →
        verdicts path (pagesAt [first, second] (range 2)) = .ok [(0, true), (1, true)] := by
      intro first second hfirst hsecond
      change verdicts path [(0, first), (1, second)] = _
      simp only [verdicts, hfirst, hsecond, Except.map]
    have hverdicts := hpair _ _ (isPageCorrupted_corruptPage 1 0) (isPageCorrupted_corruptPage 9 1)
    rw [hpages] at hbase
    rw [hbase, hverified, hverdicts]
    rfl
  have hagree := increment_verification_agrees path "16384".toList pages (by rw [hpages]; decide) 5 (some {1})
    (fun bits hbits b hb => by
      cases hbits
      rw [Finset.mem_singleton.mp hb]
      decide) reader ((diffMapHeader size [1]).length + 1 * databasePageSize) (by rw [hpages]; exact hstart)
  simp only [hpages] at hagree
  rw [hfile] at hagree
  exact ⟨hstart, hfile, Prod.ext hagree.1 (hagree.2 rfl)⟩

end Agreement

end WalG.Backup
