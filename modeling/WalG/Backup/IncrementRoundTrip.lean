import WalG.Backup.PageReader
import WalG.PageFile.Apply

/-! # Increments of a full scan

The reader delivers the header and the picked pages in pieces of any size, and what it delivers is
one byte string that ends where it was announced to end.
-/
namespace WalG.Backup
open Foundation PageFile List

section Pieces

/-- One read into a buffer: leftover bytes first, then page after page until the
buffer is full. -/
def readPiece (pagedFile : Bytes) : List ℕ → Bytes → ℕ →
    Bytes × Option ReadError × IncrementalPageReader
  | [], next, n =>
    if n ≤ next.length then (next.take n, none, ⟨pagedFile, next.drop n, []⟩)
    else (next, some .eof, ⟨pagedFile, [], []⟩)
  | blockNo :: blocks, next, n =>
    if n ≤ next.length then (next.take n, none, ⟨pagedFile, next.drop n, blockNo :: blocks⟩)
    else
      match advanceFileReader pagedFile blockNo with
      | .error e => (next, some e, ⟨pagedFile, [], blocks⟩)
      | .ok page =>
        match readPiece pagedFile blocks page (n - next.length) with
        | (more, err, reader) => (next ++ more, err, reader)

def IncrementalPageReader.read (reader : IncrementalPageReader) (n : ℕ) :
    Bytes × Option ReadError × IncrementalPageReader :=
  readPiece reader.pagedFile reader.blocks reader.next n

/-- Reads with buffers of the given sizes, up to the first error. -/
def IncrementalPageReader.readPieces (reader : IncrementalPageReader) : List ℕ → Bytes × Option ReadError
  | [] => ([], none)
  | n :: sizes =>
    match reader.read n with
    | (piece, some e, _) => (piece, some e)
    | (piece, none, reader) =>
      match reader.readPieces sizes with
      | (more, err) => (piece ++ more, err)

variable {pagedFile stream : Bytes}

theorem readPiece_eq {blocks : List ℕ} {next : Bytes}
    (h : IncrementalPageReader.readAll ⟨pagedFile, next, blocks⟩ = .ok stream) (n : ℕ) :
    ∃ reader, readPiece pagedFile blocks next n =
        (stream.take n, if n ≤ stream.length then none else some .eof, reader) ∧
      reader.readAll = .ok (stream.drop n) := by
  induction blocks generalizing next stream n with
  | nil =>
    have hstream : next = stream := by
      rw [IncrementalPageReader.readAll, drainPages, Except.map, append_nil] at h
      exact Except.ok.inj h
    subst hstream
    rw [readPiece]
    split_ifs with hn
    · exact ⟨_, rfl, by simp [IncrementalPageReader.readAll, drainPages, Except.map]⟩
    · refine ⟨⟨pagedFile, [], []⟩, ?_, ?_⟩
      · rw [take_of_length_le (by omega)]
      · rw [drop_eq_nil_of_le (by omega)]
        rfl
  | cons blockNo blocks ih =>
    rw [IncrementalPageReader.readAll, drainPages] at h
    cases hpage : advanceFileReader pagedFile blockNo with
    | error e =>
      rw [hpage] at h
      cases h
    | ok page =>
      cases hrest : drainPages pagedFile blocks with
      | error e =>
        rw [hpage, hrest] at h
        cases h
      | ok pages =>
        rw [hpage, hrest] at h
        obtain rfl : next ++ (page ++ pages) = stream := Except.ok.inj h
        rw [readPiece]
        by_cases hn : n ≤ next.length
        · refine ⟨⟨pagedFile, next.drop n, blockNo :: blocks⟩, ?_, ?_⟩
          · rw [if_pos hn, take_append_of_le_length hn, if_pos (by rw [length_append]; omega)]
          · rw [IncrementalPageReader.readAll, drainPages, hpage, hrest, drop_append_of_le_length hn]
            rfl
        · obtain ⟨reader, hreader, hall⟩ := @ih (page ++ pages) page (by
            rw [IncrementalPageReader.readAll, hrest]
            rfl) (n - next.length)
          generalize page ++ pages = rest at hreader hall ⊢
          have hlong : n - next.length ≤ rest.length ↔ n ≤ (next ++ rest).length := by
            rw [length_append]
            omega
          refine ⟨reader, ?_, ?_⟩
          · rw [if_neg hn, hpage]
            simp only [hreader, hlong]
            rw [take_append, take_of_length_le (l := next) (by omega)]
          · have hnil : next.drop n = [] := drop_eq_nil_of_le (by omega)
            rw [hall, drop_append, hnil, nil_append]

/-- However the reads are cut, they deliver one byte string and then its end. -/
theorem readPieces_eq {reader : IncrementalPageReader} (h : reader.readAll = .ok stream)
    (sizes : List ℕ) : reader.readPieces sizes =
      (stream.take sizes.sum, if sizes.sum ≤ stream.length then none else some .eof) := by
  induction sizes generalizing reader stream with
  | nil => simp [IncrementalPageReader.readPieces]
  | cons n sizes ih =>
    obtain ⟨next, hnext, hall⟩ := readPiece_eq h n
    rw [IncrementalPageReader.readPieces, IncrementalPageReader.read, hnext, sum_cons]
    by_cases hn : n ≤ stream.length
    · simp only [if_pos hn, ih hall, length_drop]
      rw [take_add]
      congr 1
      split_ifs <;> first | rfl | omega
    · rw [if_neg hn, if_neg (by omega), take_of_length_le (by omega), take_of_length_le (by omega)]

end Pieces

section RoundTrip

variable {lsn : ℕ} {old new : List Page}

theorem selectedBlocks_increasing (lsn : ℕ) (pages : List Page) : (selectedBlocks lsn pages).Pairwise (· < ·) := by
  have hsub : (selectedBlocks lsn pages).Sublist (range' 0 pages.length) := by
    rw [← numbered_fst, selectedBlocks]
    exact filter_sublist.map _
  exact (pairwise_lt_range' (s := 0) (n := pages.length)).sublist hsub

theorem selectedBlocks_length (lsn : ℕ) (pages : List Page) :
    (selectedBlocks lsn pages).length = pages.countP (isSelected lsn) := by
  have hcount : ∀ i, ((numbered i pages).filter fun b => isSelected lsn b.2).length =
      pages.countP (isSelected lsn) := by
    induction pages with
    | nil => exact fun i => rfl
    | cons page pages ih =>
      intro i
      rw [numbered_cons]
      cases hsel : isSelected lsn page with
      | true => simp [hsel, ih (i + 1)]
      | false => simp [hsel, ih (i + 1)]
  rw [selectedBlocks, length_map, hcount]

def scanIncrement (lsn : ℕ) (new : List Page) (hlen : new.length < 2 ^ 32) : Increment :=
  incrementOf new (selectedBlocks lsn new) (selectedBlocks_increasing lsn new)
    (fun _ hb => lt_of_mem_selectedBlocks hb) hlen

theorem scanIncrement_fits_iff (hlen : new.length < 2 ^ 32) :
    (scanIncrement lsn new hlen).Fits ↔ new.countP (isSelected lsn) < 2 ^ 30 := by
  rw [← selectedBlocks_length]
  simp only [Increment.Fits, scanIncrement, incrementOf, length_map, sizeofInt32]
  omega

/-- Over a base that agrees where nothing was selected, the increment gives the
scanned pages. -/
theorem scanIncrement_apply (hlen : new.length < 2 ^ 32)
    (hbase : ∀ (b : ℕ) page, new[b]? = some page → isSelected lsn page = true ∨ old[b]? = some page) :
    (scanIncrement lsn new hlen).apply old = new := by
  apply ext_getElem?
  intro b
  rcases lt_or_ge b new.length with hb | hb
  · obtain ⟨page, hpage⟩ : ∃ page, new[b]? = some page := ⟨_, getElem?_eq_getElem hb⟩
    rw [Increment.apply_getElem? _ _ hb, scanIncrement, incrementOf_page?, hpage]
    by_cases hsel : isSelected lsn page = true
    · rw [if_pos (mem_selectedBlocks.mpr ⟨page, hpage, hsel⟩)]
      rfl
    · have hnot : b ∉ selectedBlocks lsn new := by
        rw [mem_selectedBlocks, hpage]
        rintro ⟨q, hq, hqsel⟩
        exact hsel (Option.some.inj hq ▸ hqsel)
      rw [if_neg hnot, (hbase b page hpage).resolve_left hsel]
      rfl
  · rw [Increment.apply_getElem?_ge _ _ hb, getElem?_eq_none hb]

theorem start_fullScan (hlen : new.length < 2 ^ 32) (hvalid : ∀ page ∈ new, validOrNew page = true) :
    ∃ reader, IncrementalPageReader.start (joinBlocks new) (joinBlocks new).length lsn none =
        .ok (reader, (scanIncrement lsn new hlen).encode.length) ∧
      reader.readAll = .ok (scanIncrement lsn new hlen).encode := by
  have hsize := incrementOf_encode_length new _ (selectedBlocks_increasing lsn new)
    (fun _ hb => lt_of_mem_selectedBlocks hb) hlen
  refine ⟨_, ?_, readAll_incrementOf new _ (selectedBlocks_increasing lsn new)
    (fun _ hb => lt_of_mem_selectedBlocks hb) hlen⟩
  rw [IncrementalPageReader.start, fullScanInitialize_pages hvalid hlen, scanIncrement, hsize]

/-- The reader delivers the announced number of bytes, however it is read, and what
it delivers turns the base into the scanned file if and only if fewer than 2^30
pages were selected. -/
theorem fullScan_roundTrip_iff (lsn : ℕ) (old new : List Page) (createNewIncrementalFiles : Bool)
    (hlen : new.length < 2 ^ 32) (hvalid : ∀ page ∈ new, validOrNew page = true)
    (hbase : ∀ (b : ℕ) page, new[b]? = some page → isSelected lsn page = true ∨ old[b]? = some page) :
    ∃ reader size stream,
      IncrementalPageReader.start (joinBlocks new) (joinBlocks new).length lsn none = .ok (reader, size) ∧
      stream.length = size ∧
      (∀ sizes, reader.readPieces sizes =
        (stream.take sizes.sum, if sizes.sum ≤ stream.length then none else some .eof)) ∧
      (applyFileIncrement (some (joinBlocks old)) (.ofBytes stream) createNewIncrementalFiles =
          (some (joinBlocks new), .ok ()) ↔ new.countP (isSelected lsn) < 2 ^ 30) := by
  obtain ⟨reader, hstart, hall⟩ := @start_fullScan lsn new hlen hvalid
  refine ⟨reader, _, _, hstart, rfl, readPieces_eq hall, ?_⟩
  rw [← scanIncrement_fits_iff hlen]
  constructor
  · intro hok
    by_contra hfits
    obtain ⟨err, herr⟩ := applyFileIncrement_not_fits _ hfits (some (joinBlocks old)) .eof
      createNewIncrementalFiles
    rw [← Reader.ofBytes, hok] at herr
    cases herr
  · intro hfits
    rw [Reader.ofBytes, applyFileIncrement_encode _ hfits, scanIncrement_apply hlen hbase]

/-- The first page is kept from the base, the second one was changed since. -/
theorem fullScan_roundTrip_changedPage : let kept := filledPage 1 0 7
    let old := [kept, filledPage 2 0 7]
    let new := [kept, filledPage 9 0 8]
    isSelected 5 kept = false ∧
    ∃ reader size stream,
      IncrementalPageReader.start (joinBlocks new) (joinBlocks new).length 5 none = .ok (reader, size) ∧
      stream.length = size ∧
      applyFileIncrement (some (joinBlocks old)) (.ofBytes stream) false = (some (joinBlocks new), .ok ()) := by
  intro kept old new
  have hvalid : ∀ page ∈ new, validOrNew page = true := by
    simp only [new, kept, forall_mem_cons, validOrNew, pageHeader_filledPage]
    exact ⟨rfl, rfl, fun _ h => absurd h not_mem_nil⟩
  have hbase : ∀ (b : ℕ) page, new[b]? = some page → isSelected 5 page = true ∨ old[b]? = some page := by
    rintro (_ | _ | b) page h
    · exact .inr h
    · cases h
      rw [isSelected, pageHeader_filledPage]
      exact .inl rfl
    · cases h
  obtain ⟨reader, size, stream, hstart, hsize, -, happly⟩ :=
    fullScan_roundTrip_iff 5 old new false (by decide) hvalid hbase
  refine ⟨?_, reader, size, stream, hstart, hsize, happly.mpr (lt_of_le_of_lt countP_le_length (by decide))⟩
  rw [isSelected, pageHeader_filledPage]
  rfl

/-- The table of so many new pages wraps in the decoder. -/
theorem fullScan_roundTrip_wraps :
    (∀ page ∈ replicate (2 ^ 30) emptyPage, validOrNew page = true ∧ isSelected 0 page = true) ∧ ∃ reader size stream,
      IncrementalPageReader.start (joinBlocks (replicate (2 ^ 30) emptyPage))
          (joinBlocks (replicate (2 ^ 30) emptyPage)).length 0 none = .ok (reader, size) ∧
      reader.readAll = .ok stream ∧
      ∃ err, (applyFileIncrement (some []) (.ofBytes stream) false).2 = .error err := by
  have hall : ∀ page ∈ replicate (2 ^ 30) emptyPage,
      validOrNew page = true ∧ isSelected 0 page = true := by
    intro page hp
    rw [eq_of_mem_replicate hp]
    exact ⟨validOrNew_emptyPage, isSelected_emptyPage 0⟩
  have hlen : (replicate (2 ^ 30) emptyPage).length < 2 ^ 32 := by
    rw [length_replicate]
    decide
  have hfits : ¬ (scanIncrement 0 (replicate (2 ^ 30) emptyPage) hlen).Fits := by
    rw [scanIncrement_fits_iff, countP_replicate, isSelected_emptyPage, if_pos rfl]
    exact lt_irrefl _
  obtain ⟨reader, hstart, hread⟩ := @start_fullScan 0 _ hlen fun page hp => (hall page hp).1
  exact ⟨hall, reader, _, _, hstart, hread, applyFileIncrement_not_fits _ hfits (some []) .eof false⟩

end RoundTrip

end WalG.Backup
