import WalG.Backup.PageVerifier

/-! # The decoders of increments on arbitrary input

A block count of 2^30 or more crashes them.
-/
namespace WalG.Backup
open Foundation PageFile List

section Verification

variable {path : Text}

/-- The number of pages of an increment that are verified. -/
def verifiedPages (path : Text) (fileInfo : PagedFileInfo) (h : IncrementHeader) (rest : Reader) : ℕ :=
  if fileInfo.isVerified path then
    match verifyBlocks path (announcedBlocks h) rest with
    | .error _ => 0
    | .ok verdicts => verdicts.length
  else 0

/-- The pages end before the announced blocks do, and each of them can be verified. -/
def EndsEarly (path : Text) (count : ℕ) (data : Bytes) : Prop :=
  ∃ pages : List Page, data = joinBlocks pages ∧ pages.length < count ∧
    ∀ page ∈ pages, needsChecksum page → ∃ relFileID, getRelFileIDFrom path = .ok relFileID

theorem announcedBlocks_length (h : IncrementHeader) : (announcedBlocks h).length = h.diffBlockCount := by
  rw [announcedBlocks, length_map, length_range]

/-- The pages with the first of the block numbers. -/
def underNumbers (blockNumbers : List ℕ) (pages : List Page) : List (ℕ × Page) :=
  (blockNumbers.take pages.length).zip pages

theorem verifyBlocks_underNumbers {blockNumbers : List ℕ} {pages : List Page} (h : pages.length ≤ blockNumbers.length) :
    verifyBlocks path blockNumbers (.ofBytes (joinBlocks pages)) = verdicts path (underNumbers blockNumbers pages) := by
  have hlen : (blockNumbers.take pages.length).length = pages.length := by rw [length_take, min_eq_left h]
  have hfst : (underNumbers blockNumbers pages).map Prod.fst = blockNumbers.take pages.length :=
    map_fst_zip hlen.le
  have hsnd : (underNumbers blockNumbers pages).map Prod.snd = pages := map_snd_zip hlen.ge
  have hloop := verifyBlocks_pages path (underNumbers blockNumbers pages) (blockNumbers.drop pages.length)
  rwa [hfst, hsnd, take_append_drop] at hloop

theorem isPageCorrupted_ok_iff (blockNo : ℕ) (page : Page) :
    (∃ verdict, isPageCorrupted path blockNo page.toList = .ok verdict) ↔
      (needsChecksum page → ∃ relFileID, getRelFileIDFrom path = .ok relFileID) := by
  rw [isPageCorrupted_page]
  cases needsChecksum page with
  | false => exact ⟨fun _ => nofun, fun _ => ⟨false, rfl⟩⟩
  | true =>
    cases getRelFileIDFrom path with
    | error e => simp
    | ok relFileID => exact ⟨fun _ _ => ⟨relFileID, rfl⟩, fun _ => ⟨_, rfl⟩⟩

/-- Verification accepts fewer pages than announced exactly when they end early. -/
theorem verifyBlocks_all_iff (h : IncrementHeader) (data : Bytes) :
    (∀ verdicts, verifyBlocks path (announcedBlocks h) (.ofBytes data) = .ok verdicts →
      verdicts.length = h.diffBlockCount) ↔ ¬ EndsEarly path h.diffBlockCount data := by
  constructor
  · rintro hall ⟨pages, rfl, hlt, hpages⟩
    have hle : pages.length ≤ (announcedBlocks h).length := by
      rw [announcedBlocks_length]
      exact hlt.le
    have hok := hall _ ((verifyBlocks_underNumbers hle).trans (verdicts_of_ok path fun block hblock =>
      (isPageCorrupted_ok_iff block.1 block.2).mpr (hpages block.2 (of_mem_zip hblock).2)))
    rw [length_map, underNumbers, length_zip, length_take, min_eq_left hle, min_self] at hok
    exact hlt.ne hok
  · intro hearly verdicts hok
    rcases verifyBlocks_ok hok with hlen | ⟨pages, rfl, hpages, hlt⟩
    · rw [hlen, announcedBlocks_length]
    · have hle : pages.length ≤ (announcedBlocks h).length := hpages ▸ hlt.le
      rw [announcedBlocks_length] at hlt
      refine absurd ⟨pages, rfl, hpages ▸ hlt, fun page hpage => ?_⟩ hearly
      have hlen : pages.length ≤ ((announcedBlocks h).take pages.length).length := by
        rw [length_take, min_eq_left hle]
      have hmem : page ∈ (underNumbers (announcedBlocks h) pages).map Prod.snd := by
        rw [underNumbers, map_snd_zip hlen]
        exact hpage
      obtain ⟨block, hblock, rfl⟩ := mem_map.mp hmem
      rw [← isPageCorrupted_ok_iff block.1]
      rw [verifyBlocks_underNumbers hle] at hok
      rcases all_ok_or_error path (underNumbers (announcedBlocks h) pages) with hall | herror
      · exact hall block hblock
      · obtain ⟨e, he⟩ := verdicts_of_error path herror
        cases he.symm.trans hok

end Verification

section Safety

/-- None of the decoders panics on the increment. -/
structure NeverPanics (increment : Bytes) (target : List Page) (createNewIncrementalFiles overwriteExisting : Bool)
    (path : Text) (fileInfo : PagedFileInfo) : Prop where
  apply : (applyFileIncrement (some (joinBlocks target)) (.ofBytes increment) createNewIncrementalFiles).2 ≠
    .error .indexOutOfRange
  create : (createFileFromIncrement (.ofBytes increment) (joinBlocks target)).2 ≠ .error .indexOutOfRange
  write : (writePagesFromIncrement (.ofBytes increment) (joinBlocks target) overwriteExisting).2 ≠
    .error .indexOutOfRange
  verify : ∀ e, (verifyPagedFileIncrement path fileInfo (.ofBytes increment)).2 = some e → ¬ e.isPanic

/-- An increment that is accepted contributes as many pages as it announces: the pages that are applied or written
are all that follows the header, and those that a new file or the verification takes are counted. -/
structure ContributesAll (increment : Bytes) (target : List Page) (createNewIncrementalFiles overwriteExisting : Bool)
    (path : Text) (fileInfo : PagedFileInfo) (h : IncrementHeader) (rest : Reader) : Prop where
  apply : (applyFileIncrement (some (joinBlocks target)) (.ofBytes increment) createNewIncrementalFiles).2 = .ok () →
    rest.data.length = h.diffBlockCount * databasePageSize
  create : ∀ missing, (createFileFromIncrement (.ofBytes increment) (joinBlocks target)).2 = .ok missing →
    (h.fileSize / databasePageSize : ℕ) - missing = h.diffBlockCount
  write : ∀ restored, (writePagesFromIncrement (.ofBytes increment) (joinBlocks target) overwriteExisting).2 =
    .ok restored → rest.data.length = h.diffBlockCount * databasePageSize
  verify : (verifyPagedFileIncrement path fileInfo (.ofBytes increment)).2 = none →
    verifiedPages path fileInfo h rest = h.diffBlockCount

/-- The number of distinct announced blocks inside the announced file. -/
def distinctBlocks (h : IncrementHeader) : ℕ :=
  ((announcedBlocks h).dedup.filter (· < h.fileSize / databasePageSize)).length

/-- The block count fits, the blocks are distinct blocks of the file or pages of them are missing, and the pages
that are verified do not end early. -/
structure WellAnnounced (path : Text) (fileInfo : PagedFileInfo) (h : IncrementHeader) (rest : Reader) : Prop where
  count : h.diffBlockCount < 2 ^ 30
  blocks : distinctBlocks h = h.diffBlockCount ∨ rest.data.length < distinctBlocks h * databasePageSize
  verified : if fileInfo.isVerified path then ¬ EndsEarly path h.diffBlockCount rest.data else h.diffBlockCount = 0

variable {increment : Bytes} {target : List Page} {createNewIncrementalFiles overwriteExisting : Bool} {path : Text}
  {fileInfo : PagedFileInfo} {h : IncrementHeader} {rest : Reader}

theorem verifyBlocks_ne_panic {blockNumbers : List ℕ} {r : Reader} {e : VerifyError}
    (hverified : fileInfo.isVerified path) (he : verifyBlocks path blockNumbers r = .error e) : ¬ e.isPanic := by
  rw [PagedFileInfo.isVerified, Bool.and_eq_true] at hverified
  rcases verifyBlocks_error he with ⟨e', rfl⟩ | ⟨e', hid, rfl⟩
  · rintro (hpanic | hpanic) <;> cases hpanic
  · rintro (hpanic | hpanic)
    · cases hpanic
    · cases hpanic
      exact getRelFileIDFrom_ne_panic hverified.2 hid

theorem neverPanics_of_error {e : FileError} (hd : getIncrementHeaderFields (.ofBytes increment) = .error e) :
    NeverPanics increment target createNewIncrementalFiles overwriteExisting path fileInfo := by
  have hne : e ≠ .indexOutOfRange := fun he => getIncrementHeaderFields_ne_panic _ (he ▸ hd)
  refine ⟨?_, ?_, ?_, ?_⟩
  · rw [applyFileIncrement, hd]
    exact fun hpanic => hne (Except.error.inj hpanic)
  · rw [createFileFromIncrement, hd]
    exact fun hpanic => hne (Except.error.inj hpanic)
  · rw [writePagesFromIncrement, hd]
    exact fun hpanic => hne (Except.error.inj hpanic)
  · rw [verifyPagedFileIncrement, hd]
    rintro e' he' (hpanic | hpanic)
    · cases he'
      exact hne (VerifyError.file.inj hpanic)
    · cases he'
      cases hpanic

section Decoded

variable (hd : getIncrementHeaderFields (.ofBytes increment) = .ok (h, rest))

include hd

theorem createFileFromIncrement_decoded (hcount : h.diffBlockCount < 2 ^ 30) (file : Bytes) :
    (distinctBlocks h * databasePageSize ≤ rest.data.length ∧ (createFileFromIncrement (.ofBytes increment) file).2 =
      .ok ((h.fileSize / databasePageSize : ℕ) - distinctBlocks h)) ∨
    (rest.data.length < distinctBlocks h * databasePageSize ∧
      ∃ e, (createFileFromIncrement (.ofBytes increment) file).2 = .error (.read e)) := by
  have hpages := createPages_spec (announcedBlocks h) (h.fileSize / databasePageSize) 0
    (h.fileSize / databasePageSize : ℕ) rest file
  rw [pagesWanted_eq] at hpages
  rw [createFileFromIncrement, hd]
  dsimp only
  rw [deltaBlockNumbers_announced hd, if_pos hcount]
  dsimp only
  rcases hpages with ⟨hle, r', hr'⟩ | ⟨hlt, e, he⟩
  · rw [← Prod.mk.eta (p := createPages _ _ _ _ _ _), hr']
    exact .inl ⟨hle, rfl⟩
  · rw [← Prod.mk.eta (p := createPages _ _ _ _ _ _), he]
    exact .inr ⟨hlt, e, rfl⟩

theorem createFileFromIncrement_panics (hcount : ¬ h.diffBlockCount < 2 ^ 30) (file : Bytes) :
    (createFileFromIncrement (.ofBytes increment) file).2 = .error .indexOutOfRange := by
  rw [createFileFromIncrement, hd]
  dsimp only
  rw [deltaBlockNumbers_announced hd, if_neg hcount]

theorem verifyPagedFileIncrement_decoded (hcount : h.diffBlockCount < 2 ^ 30) :
    verifyPagedFileIncrement path fileInfo (.ofBytes increment) =
      if fileInfo.isVerified path then reported (verifyBlocks path (announcedBlocks h) (.ofBytes rest.data))
      else ([], none) := by
  obtain ⟨-, -, hending⟩ := getIncrementHeaderFields_ok hd
  obtain ⟨data, ending⟩ := rest
  obtain rfl : ending = .eof := hending
  rw [verifyPagedFileIncrement, hd]
  dsimp only
  rw [deltaBlockNumbers_announced hd, if_pos hcount]
  rfl

theorem applyFileIncrement_decoded (file : Bytes) :
    (applyFileIncrement (some file) (.ofBytes increment) createNewIncrementalFiles).2 =
      if 2 ^ 63 ≤ h.fileSize then .error .invalidSize
      else (applyPages h.diffMap h.diffBlockCount 0 rest (truncate file h.fileSize)).2 >>= fun rest =>
        if rest.data = [] then .ok () else .error .unexpectedTarData := by
  have hsome : ¬ (some file = none ∧ createNewIncrementalFiles = false) := by simp
  rw [applyFileIncrement, hd]
  dsimp only
  rw [if_neg hsome, Option.getD_some]
  split_ifs
  · rfl
  · obtain ⟨file', result⟩ := applyPages h.diffMap h.diffBlockCount 0 rest (truncate file h.fileSize)
    cases result <;> rfl

theorem writePagesFromIncrement_decoded (file : Bytes) :
    (writePagesFromIncrement (.ofBytes increment) file overwriteExisting).2 =
      (writePages h.diffMap (file.length / databasePageSize) overwriteExisting h.diffBlockCount 0 0 rest file).2 >>=
        fun result => if result.2.data = [] then .ok result.1 else .error .unexpectedTarData := by
  rw [writePagesFromIncrement, hd]
  dsimp only
  obtain ⟨file', result⟩ :=
    writePages h.diffMap (file.length / databasePageSize) overwriteExisting h.diffBlockCount 0 0 rest file
  cases result <;> rfl

theorem neverPanics_of_count (hcount : h.diffBlockCount < 2 ^ 30) :
    NeverPanics increment target createNewIncrementalFiles overwriteExisting path fileInfo := by
  obtain ⟨-, hlen, -⟩ := getIncrementHeaderFields_ok hd
  have hentries : ∀ j < 0 + h.diffBlockCount, diffMapBlock h.diffMap j = .ok (blockEntry h.diffMap j) :=
    fun j hj => diffMapBlock_ok_of_lt hlen hcount (by omega)
  refine ⟨?_, ?_, ?_, ?_⟩
  · rw [applyFileIncrement_decoded hd]
    split_ifs
    · exact nofun
    · refine bind_ne_error (applyPages_ne_panic hentries) fun r => ?_
      split_ifs <;> exact nofun
  · rcases createFileFromIncrement_decoded hd hcount (joinBlocks target) with ⟨-, hok⟩ | ⟨-, e, he⟩
    · rw [hok]
      exact nofun
    · rw [he]
      exact nofun
  · rw [writePagesFromIncrement_decoded hd]
    refine bind_ne_error (writePages_ne_panic hentries) fun result => ?_
    split_ifs <;> exact nofun
  · intro e he
    rw [verifyPagedFileIncrement_decoded hd hcount] at he
    split_ifs at he with hverified
    cases hloop : verifyBlocks path (announcedBlocks h) (.ofBytes rest.data) with
    | error e' =>
      rw [hloop] at he
      cases he
      exact verifyBlocks_ne_panic hverified hloop
    | ok verdicts =>
      rw [hloop] at he
      cases he

theorem verifiedPages_iff (hcount : h.diffBlockCount < 2 ^ 30) :
    ((verifyPagedFileIncrement path fileInfo (.ofBytes increment)).2 = none →
      verifiedPages path fileInfo h rest = h.diffBlockCount) ↔
    if fileInfo.isVerified path then ¬ EndsEarly path h.diffBlockCount rest.data else h.diffBlockCount = 0 := by
  obtain ⟨-, -, hending⟩ := getIncrementHeaderFields_ok hd
  rw [verifyPagedFileIncrement_decoded hd hcount, verifiedPages]
  obtain ⟨data, ending⟩ := rest
  obtain rfl : ending = .eof := hending
  cases fileInfo.isVerified path with
  | false => exact ⟨fun hpages => (hpages rfl).symm, fun hzero _ => hzero.symm⟩
  | true =>
    have hrest : (⟨data, .eof⟩ : Reader) = .ofBytes data := rfl
    simp only [if_true]
    rw [← verifyBlocks_all_iff, hrest]
    cases verifyBlocks path (announcedBlocks h) (.ofBytes data) with
    | error e => exact ⟨fun _ => nofun, fun _ => nofun⟩
    | ok verdicts =>
      refine ⟨fun hpages verdicts' hok => ?_, fun hall _ => hall verdicts rfl⟩
      rw [← Except.ok.inj hok]
      exact hpages rfl

theorem createdPages_iff (hcount : h.diffBlockCount < 2 ^ 30) (file : Bytes) :
    (∀ missing, (createFileFromIncrement (.ofBytes increment) file).2 = .ok missing →
      (h.fileSize / databasePageSize : ℕ) - missing = h.diffBlockCount) ↔
    distinctBlocks h = h.diffBlockCount ∨ rest.data.length < distinctBlocks h * databasePageSize := by
  rcases createFileFromIncrement_decoded hd hcount file with ⟨hle, hok⟩ | ⟨hlt, e, he⟩
  · rw [hok]
    constructor
    · intro hall
      have := hall _ rfl
      exact .inl (by omega)
    · rintro (heq | hlt) missing hmissing
      · cases hmissing
        omega
      · omega
  · rw [he]
    exact ⟨fun _ => .inr hlt, fun _ => nofun⟩

theorem appliedPages {file : Bytes}
    (hok : (applyFileIncrement (some file) (.ofBytes increment) createNewIncrementalFiles).2 = .ok ()) :
    rest.data.length = h.diffBlockCount * databasePageSize := by
  rw [applyFileIncrement_decoded hd] at hok
  split_ifs at hok
  obtain ⟨r, hloop, hok⟩ := bind_ok hok
  split_ifs at hok with hempty
  rw [applyPages_data (Prod.ext rfl hloop), hempty, length_nil, Nat.add_zero]

theorem writtenPages {file : Bytes} {restored : ℕ}
    (hok : (writePagesFromIncrement (.ofBytes increment) file overwriteExisting).2 = .ok restored) :
    rest.data.length = h.diffBlockCount * databasePageSize := by
  rw [writePagesFromIncrement_decoded hd] at hok
  obtain ⟨⟨count, r⟩, hloop, hok⟩ := bind_ok hok
  split_ifs at hok with hempty
  rw [writePages_data (Prod.ext rfl hloop), hempty, length_nil, Nat.add_zero]

end Decoded

/-- The decoders are safe on an increment, and take as many pages as it announces, if and only if its header cannot be
read or it is well announced. -/
theorem increment_decoders_safe_iff (increment : Bytes) (target : List Page)
    (createNewIncrementalFiles overwriteExisting : Bool) (path : Text) (fileInfo : PagedFileInfo) :
    (NeverPanics increment target createNewIncrementalFiles overwriteExisting path fileInfo ∧
      ∀ h rest, getIncrementHeaderFields (.ofBytes increment) = .ok (h, rest) →
        ContributesAll increment target createNewIncrementalFiles overwriteExisting path fileInfo h rest) ↔
    ∀ h rest, getIncrementHeaderFields (.ofBytes increment) = .ok (h, rest) → WellAnnounced path fileInfo h rest := by
  constructor
  · rintro ⟨hsafe, hall⟩ h rest hd
    have hcount : h.diffBlockCount < 2 ^ 30 := by
      by_contra hwraps
      exact hsafe.create (createFileFromIncrement_panics hd hwraps _)
    have hcontributes := hall h rest hd
    exact ⟨hcount, (createdPages_iff hd hcount _).mp hcontributes.create,
      (verifiedPages_iff hd hcount).mp hcontributes.verify⟩
  · intro hwell
    refine ⟨?_, fun h rest hd => ?_⟩
    · cases hd : getIncrementHeaderFields (.ofBytes increment) with
      | error e => exact neverPanics_of_error hd
      | ok result => exact neverPanics_of_count hd (hwell result.1 result.2 hd).count
    · have hannounced := hwell h rest hd
      exact ⟨appliedPages hd, (createdPages_iff hd hannounced.count _).mpr hannounced.blocks,
        fun _ => writtenPages hd, (verifiedPages_iff hd hannounced.count).mpr hannounced.verified⟩

/-- Sixteen bytes that announce 2^30 blocks, and so a table of no bytes, crash all the decoders. -/
theorem announced_table_wraps :
    let increment : Bytes := incrementFileHeader ++ leBytes sizeofInt64 databasePageSize ++ leBytes sizeofInt32 (2 ^ 30)
    (applyFileIncrement (some []) (.ofBytes increment) false).2 = .error .indexOutOfRange ∧
      (createFileFromIncrement (.ofBytes increment) []).2 = .error .indexOutOfRange ∧
      (writePagesFromIncrement (.ofBytes increment) [] true).2 = .error .indexOutOfRange ∧
      (verifyPagedFileIncrement [] ⟨[], databasePageSize⟩ (.ofBytes increment)).2 = some (.file .indexOutOfRange) := by
  refine ⟨?_, ?_, ?_, ?_⟩ <;> rfl

end Safety

end WalG.Backup
