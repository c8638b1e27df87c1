import WalG.Backup.DeltaMap
import WalG.Backup.PageScan

/-! # The incremental page reader

The reader picks the blocks of a paged file, by a bitmap or by a full scan, and then delivers the
increment: the header with the block table, and the picked pages read back from the file.
-/
namespace WalG.Backup
open Foundation PageFile List Function

structure IncrementalPageReader where
  pagedFile : Bytes
  next : Bytes
  blocks : List ℕ

/-- The members of the bitmap up to the first whole block past the end. -/
def deltaBitmapInitialize (fileSize : ℕ) (deltaBitmap : Bitmap) : List ℕ :=
  (deltaBitmap.sort (· ≤ ·)).takeWhile fun blockNo =>
    (blockNo + 1) % 2 ^ 32 * databasePageSize ≤ fileSize

def diffMapHeader (fileSize : ℕ) (blocks : List ℕ) : Bytes :=
  incrementFileHeader ++ (leBytes sizeofInt64 fileSize ++
    (leBytes sizeofInt32 blocks.length ++ leTable sizeofInt32 blocks))

/-- The reader and the announced size of the increment. -/
def IncrementalPageReader.start (pagedFile : Bytes) (fileSize lsn : ℕ)
    (deltaBitmap : Option Bitmap) : Except ScanError (IncrementalPageReader × ℕ) :=
  let initialized := match deltaBitmap with
    | none => fullScanInitialize lsn (.ofBytes pagedFile)
    | some bitmap => .ok (deltaBitmapInitialize fileSize bitmap)
  match initialized with
  | .error e => .error e
  | .ok blocks =>
    let header := diffMapHeader fileSize blocks
    .ok (⟨pagedFile, header, blocks⟩, header.length + blocks.length * databasePageSize)

/-- The next page, read back from the file. -/
def advanceFileReader (pagedFile : Bytes) (blockNo : ℕ) : Except ReadError Bytes :=
  ((Reader.ofBytes (pagedFile.drop (blockNo * databasePageSize))).readFull databasePageSize).map
    Prod.fst

def drainPages (pagedFile : Bytes) : List ℕ → Except ReadError Bytes
  | [] => .ok []
  | blockNo :: blocks =>
    match advanceFileReader pagedFile blockNo with
    | .error e => .error e
    | .ok page => (drainPages pagedFile blocks).map (page ++ ·)

/-- Everything the reader delivers until its end. -/
def IncrementalPageReader.readAll (reader : IncrementalPageReader) : Except ReadError Bytes :=
  (drainPages reader.pagedFile reader.blocks).map (reader.next ++ ·)

/-- The picked pages up to the first that cannot be read, and the error that ends them. -/
def drainedPages (pagedFile : Bytes) : List ℕ → Reader
  | [] => ⟨[], .eof⟩
  | blockNo :: blocks =>
    match advanceFileReader pagedFile blockNo with
    | .error e => ⟨[], e⟩
    | .ok page => ⟨page ++ (drainedPages pagedFile blocks).data, (drainedPages pagedFile blocks).ending⟩

/-- What the reader delivers, with the error that ends it; a page past the end of the file ends it in order. -/
def IncrementalPageReader.stream (reader : IncrementalPageReader) : Reader where
  data := reader.next ++ (drainedPages reader.pagedFile reader.blocks).data
  ending := (drainedPages reader.pagedFile reader.blocks).ending

theorem drainedPages_of_drainPages {pagedFile data : Bytes} {blocks : List ℕ}
    (h : drainPages pagedFile blocks = .ok data) : drainedPages pagedFile blocks = .ofBytes data := by
  induction blocks generalizing data with
  | nil =>
    cases h
    rfl
  | cons blockNo blocks ih =>
    rw [drainPages] at h
    rw [drainedPages]
    cases hpage : advanceFileReader pagedFile blockNo with
    | error e =>
      rw [hpage] at h
      cases h
    | ok page =>
      rw [hpage] at h
      cases hrest : drainPages pagedFile blocks with
      | error e =>
        rw [hrest] at h
        cases h
      | ok rest =>
        rw [hrest] at h
        cases h
        rw [ih hrest]
        rfl

theorem stream_of_readAll {reader : IncrementalPageReader} {data : Bytes} (h : reader.readAll = .ok data) :
    reader.stream = .ofBytes data := by
  rw [IncrementalPageReader.readAll] at h
  cases hpages : drainPages reader.pagedFile reader.blocks with
  | error e =>
    rw [hpages] at h
    cases h
  | ok pages =>
    rw [hpages] at h
    cases h
    rw [IncrementalPageReader.stream, drainedPages_of_drainPages hpages]
    rfl

theorem takeWhile_eq_filter_of_increasing {l : List ℕ} (hl : l.Pairwise (· < ·)) {p : ℕ → Bool}
    (hp : ∀ a ∈ l, ∀ b ∈ l, a < b → p b = true → p a = true) : l.takeWhile p = l.filter p := by
  induction l with
  | nil => rfl
  | cons a l ih =>
    obtain ⟨ha, hl⟩ := pairwise_cons.mp hl
    rw [takeWhile_cons, filter_cons]
    cases hpa : p a with
    | true =>
      rw [ih hl fun c hc d hd => hp c (mem_cons_of_mem a hc) d (mem_cons_of_mem a hd)]
      rfl
    | false =>
      refine (filter_eq_nil_iff.mpr fun b hb hpb => ?_).symm
      rw [hp a mem_cons_self b (mem_cons_of_mem a hb) (ha b hb) hpb] at hpa
      cases hpa

theorem deltaBitmapInitialize_increasing (fileSize : ℕ) (bitmap : Bitmap) :
    (deltaBitmapInitialize fileSize bitmap).Pairwise (· < ·) :=
  (Finset.sortedLT_sort bitmap).pairwise.sublist (takeWhile_sublist _)

/-- The iteration goes upwards, so that it loses nothing by stopping early. -/
theorem deltaBitmapInitialize_eq_filter {bitmap : Bitmap} (hlt : ∀ b ∈ bitmap, b < blocksInRelFile)
    (fileSize : ℕ) : deltaBitmapInitialize fileSize bitmap =
      (bitmap.sort (· ≤ ·)).filter fun b => (b + 1) * databasePageSize ≤ fileSize := by
  have hwrap : ∀ b ∈ bitmap.sort (· ≤ ·), (b + 1) % 2 ^ 32 = b + 1 := by
    intro b hb
    have hb := hlt b (Finset.mem_sort _ |>.mp hb)
    have : blocksInRelFile < 2 ^ 32 := by decide
    exact Nat.mod_eq_of_lt (by omega)
  rw [deltaBitmapInitialize, takeWhile_eq_filter_of_increasing (Finset.sortedLT_sort bitmap).pairwise]
  · exact filter_congr fun b hb => by rw [hwrap b hb]
  · intro a ha b hb hab
    rw [decide_eq_true_iff, decide_eq_true_iff, hwrap a ha, hwrap b hb]
    exact (Nat.mul_le_mul_right _ (by omega)).trans

theorem mem_deltaBitmapInitialize {bitmap : Bitmap} {pageCount b : ℕ} (hlt : ∀ b ∈ bitmap, b < blocksInRelFile) :
    b ∈ deltaBitmapInitialize (pageCount * databasePageSize) bitmap ↔ b ∈ bitmap ∧ b < pageCount := by
  rw [deltaBitmapInitialize_eq_filter hlt, mem_filter, Finset.mem_sort, decide_eq_true_iff,
    Nat.mul_le_mul_right_iff (by decide), Nat.succ_le_iff]

section SegmentBlocks

/-- The selection in machine words: the range has 64-bit bounds and the shift is a
32-bit subtraction. -/
def selectRelFileWords (bitmap : Finset UInt32) (relFileID : ℕ) : Finset UInt32 :=
  (bitmap.filter fun b => relFileID * blocksInRelFile % 2 ^ 64 ≤ b.toNat ∧
      b.toNat < (relFileID + 1) * blocksInRelFile % 2 ^ 64).image
    (· - UInt32.ofNat (relFileID * blocksInRelFile))

/-- The blocks of a segment file, numbered within the relation again. -/
def relFileBlocks (bitmap : Finset UInt32) (i : Fin 32768) : Bitmap :=
  (selectRelFileWords bitmap i).image fun b => i.val * 131072 + b.toNat

variable {bitmap : Finset UInt32} {i : Fin 32768}

theorem blocksInRelFile_eq : blocksInRelFile = 131072 := rfl

theorem image_selectRelFileWords :
    (selectRelFileWords bitmap i).image UInt32.toNat = selectRelFileBlocks (bitmap.image UInt32.toNat) i := by
  have hlo : i * blocksInRelFile % 2 ^ 64 = i * blocksInRelFile := by rw [blocksInRelFile_eq]; omega
  have hhi : (i + 1) * blocksInRelFile % 2 ^ 64 = (i + 1) * blocksInRelFile := by rw [blocksInRelFile_eq]; omega
  rw [selectRelFileWords, selectRelFileBlocks, hlo, hhi, Finset.filter_image, Finset.image_image, Finset.image_image]
  refine Finset.image_congr fun b hb => ?_
  have hle := (Finset.mem_filter.mp hb).2.1
  have hword : (UInt32.ofNat (i * blocksInRelFile)).toNat = i * blocksInRelFile :=
    UInt32.toNat_ofNat_of_lt' (by rw [blocksInRelFile_eq, UInt32.size]; omega)
  rw [comp_apply, comp_apply, UInt32.toNat_sub_of_le _ _ (by rwa [UInt32.le_iff_toNat_le, hword]), hword]

theorem mem_relFileBlocks {a : ℕ} : a ∈ relFileBlocks bitmap i ↔ a ∈ bitmap.image UInt32.toNat ∧ a / 131072 = i := by
  have hshift : relFileBlocks bitmap i =
      (selectRelFileBlocks (bitmap.image UInt32.toNat) i).image (i.val * 131072 + ·) := by
    rw [← image_selectRelFileWords, Finset.image_image]
    rfl
  simp only [hshift, Finset.mem_image (f := (i.val * 131072 + ·)), mem_selectRelFileBlocks, blocksInRelFile_eq]
  constructor
  · rintro ⟨b, ⟨hlt, hb⟩, rfl⟩
    exact ⟨hb, by omega⟩
  · rintro ⟨ha, hi⟩
    have hdiv : i.val * 131072 + a % 131072 = a := by omega
    exact ⟨a % 131072, ⟨Nat.mod_lt _ (by decide), by rwa [hdiv]⟩, hdiv⟩

/-- The segment files partition the changed blocks of a relation, and the reader of a
segment file takes those of its blocks that lie within the file. -/
theorem selectRelFileWords_partition (bitmap : Finset UInt32) :
    (∀ i : Fin 32768, ∀ b ∈ selectRelFileWords bitmap i, b.toNat < 131072) ∧
      Set.univ.PairwiseDisjoint (relFileBlocks bitmap) ∧
      Finset.univ.biUnion (relFileBlocks bitmap) = bitmap.image UInt32.toNat ∧
      ∀ (i : Fin 32768) (fileSize : ℕ),
        (deltaBitmapInitialize fileSize ((selectRelFileWords bitmap i).image UInt32.toNat)).Pairwise (· < ·) ∧
        ∀ b, b ∈ deltaBitmapInitialize fileSize ((selectRelFileWords bitmap i).image UInt32.toNat) ↔
          b ∈ (selectRelFileWords bitmap i).image UInt32.toNat ∧ (b + 1) * databasePageSize ≤ fileSize := by
  have hlt (i : Fin 32768) : ∀ b ∈ (selectRelFileWords bitmap i).image UInt32.toNat, b < blocksInRelFile := by
    rw [image_selectRelFileWords]
    exact fun b hb => (mem_selectRelFileBlocks.mp hb).1
  refine ⟨fun i b hb => hlt i _ (Finset.mem_image_of_mem _ hb), ?_, ?_, ?_⟩
  · intro i _ j _ hne
    refine Finset.disjoint_left.mpr fun a hi hj => hne (Fin.ext ?_)
    rw [← (mem_relFileBlocks.mp hi).2, (mem_relFileBlocks.mp hj).2]
  · ext a
    simp only [Finset.mem_biUnion, Finset.mem_univ, true_and, mem_relFileBlocks]
    refine ⟨fun ⟨_, ha, _⟩ => ha, fun ha => ?_⟩
    obtain ⟨b, -, rfl⟩ := Finset.mem_image.mp ha
    exact ⟨⟨b.toNat / 131072, by have := b.toNat_lt; omega⟩, ha, rfl⟩
  · intro i fileSize
    refine ⟨deltaBitmapInitialize_increasing _ _, fun b => ?_⟩
    rw [deltaBitmapInitialize_eq_filter (hlt i), mem_filter, Finset.mem_sort, decide_eq_true_iff]

end SegmentBlocks

variable (pages : List Page) (blocks : List ℕ) (hinc : blocks.Pairwise (· < ·))

theorem advanceFileReader_pages {pages : List Page} {b : ℕ} (hb : b < pages.length) :
    advanceFileReader (joinBlocks pages) b = .ok pages[b].toList := by
  rw [advanceFileReader, drop_joinBlocks, drop_eq_getElem_cons hb, joinBlocks_cons,
    Reader.ofBytes, Reader.readFull_append pages[b].toList_length]
  rfl

theorem drainPages_pages {pages : List Page} {blocks : List ℕ} (hlt : ∀ b ∈ blocks, b < pages.length) :
    drainPages (joinBlocks pages) blocks =
      .ok (joinBlocks (blocks.map fun b => pages.getD b emptyPage)) := by
  induction blocks with
  | nil => rfl
  | cons b blocks ih =>
    obtain ⟨hb, hlt⟩ := forall_mem_cons.mp hlt
    have hpage : pages.getD b emptyPage = pages[b] := by simp [hb]
    rw [drainPages, advanceFileReader_pages hb, ih hlt, map_cons, joinBlocks_cons, hpage]
    rfl

/-- The increment made of some blocks of a file of pages. -/
def incrementOf (pages : List Page) (blocks : List ℕ) (hinc : blocks.Pairwise (· < ·))
    (hlt : ∀ b ∈ blocks, b < pages.length) (hlen : pages.length < 2 ^ 32) : Increment where
  pageCount := pages.length
  blocks := blocks.map fun b => (b, pages.getD b emptyPage)
  increasing := by simpa [comp_def] using hinc
  below := by simpa using hlt
  size_lt := by
    simp only [databasePageSize]
    omega
  count_lt := by
    rw [length_map]
    exact lt_of_le_of_lt (length_le_of_increasing hinc hlt) hlen
  blockNo_lt := by
    simp only [mem_map, forall_exists_index, and_imp, forall_apply_eq_imp_iff₂]
    intro b hb
    exact lt_trans (hlt b hb) hlen

theorem incrementOf_page? (hlt : ∀ b ∈ blocks, b < pages.length) (hlen : pages.length < 2 ^ 32) (b : ℕ) :
    (incrementOf pages blocks hinc hlt hlen).page? b = if b ∈ blocks then pages[b]? else none := by
  by_cases hb : b ∈ blocks
  · have hmem : (b, pages.getD b emptyPage) ∈ (incrementOf pages blocks hinc hlt hlen).blocks :=
      mem_map_of_mem (f := fun b => (b, pages.getD b emptyPage)) hb
    have hlook := lookup_eq_some_of_mem (incrementOf pages blocks hinc hlt hlen).nodup hmem
    rw [if_pos hb, Increment.page?, hlook]
    simp [hlt b hb]
  · rw [if_neg hb]
    apply lookup_eq_none_of_notMem
    simpa [incrementOf] using hb

theorem readAll_incrementOf (hlt : ∀ b ∈ blocks, b < pages.length) (hlen : pages.length < 2 ^ 32) :
    IncrementalPageReader.readAll ⟨joinBlocks pages, diffMapHeader (joinBlocks pages).length blocks, blocks⟩ =
      .ok (incrementOf pages blocks hinc hlt hlen).encode := by
  rw [IncrementalPageReader.readAll, drainPages_pages hlt]
  simp only [Except.map, diffMapHeader, Increment.encode, Increment.header, Increment.pages,
    Increment.blockNos, Increment.fileSize, incrementOf, joinBlocks_length, map_map, length_map, comp_def, map_id']

theorem incrementOf_encode_length (hlt : ∀ b ∈ blocks, b < pages.length) (hlen : pages.length < 2 ^ 32) :
    (incrementOf pages blocks hinc hlt hlen).encode.length =
      (diffMapHeader (joinBlocks pages).length blocks).length +
        blocks.length * databasePageSize := by
  rw [Increment.encode, length_append, joinBlocks_length, Increment.header_length]
  simp [incrementOf, Increment.pages, diffMapHeader, incrementFileHeader, sizeofInt32, sizeofInt64]
  omega

end WalG.Backup
