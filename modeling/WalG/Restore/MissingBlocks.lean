import WalG.PageFile.BlockHistory
import WalG.Restore.FileRun

/-! # When the missing-block counter stops in time

A file created from an increment starts with as many missing blocks as the increment has no page
for, and every page written later counts down, whatever its header.
-/
namespace WalG.Restore
open Foundation PageFile List

/-- The page a version offers for a block; a whole file offers pages only to a
paged file. -/
def Version.page? (paged : Bool) (b : ℕ) : Version → Option Page
  | .increment inc => inc.page? b
  | .whole content => if paged then (wholeBlocks databasePageSize content)[b]? else none

/-- The versions of a file that the full fetch unwraps, newest first. -/
def versions (name : Text) : List StoredBackup → List Version
  | [] => []
  | b :: older =>
    (b.version name).toList ++
      if b.backup.isIncremental && passesDown b.backup.files name then versions name older else []

/-- The pages that older versions offer for a block. -/
def laterPages (paged : Bool) (b : ℕ) (older : List Version) : List Page :=
  older.filterMap (·.page? paged b)

/-- The page at a block after the newest increment and some older ones. -/
def currentPage (newest : Increment) (newer : List Increment) (b : ℕ) : Page :=
  pick ((newest.page? b).getD emptyPage) (newer.filterMap (·.page? b))

/-- The pages one more increment writes. -/
def writeCount (newest : Increment) (newer : List Increment) (inc : Increment) : ℕ :=
  inc.blocks.countP fun block =>
    decide (block.1 < newest.pageCount) && isMissing (currentPage newest newer block.1)

/-- With `written` pages so far: once they are as many as the file has, the
current pages must cover all that older versions offer. -/
def Accounted (paged : Bool) (newest : Increment) : List Increment → ℕ → List Version → Prop
  | _, _, [] => True
  | newer, written, v :: older =>
    if newest.pageCount ≤ written then
      ∀ b < newest.pageCount, Covers (currentPage newest newer b) (laterPages paged b (v :: older))
    else
      match v with
      | .whole _ => True
      | .increment inc =>
        Accounted paged newest (newer ++ [inc]) (written + writeCount newest newer inc) older

/-- The counter of a file is right about its versions. -/
def SafeVersions (path : Text) : List Version → Prop
  | .increment newest :: older =>
    Accounted (isPagedFile (newest.pageCount * databasePageSize) path) newest []
      newest.blocks.length older
  | _ => True

/-- Unwrapping a version over existing pages. -/
def Version.fill (paged : Bool) (pages : List Page) : Version → List Page
  | .increment inc => inc.fill false pages
  | .whole content => if paged then restore (wholeBlocks databasePageSize content) pages else pages

def fillVersions (paged : Bool) (pages : List Page) (older : List Version) : List Page :=
  older.foldl (fun pages v => v.fill paged pages) pages

variable {path name : Text} {paged : Bool} {pages : List Page}

@[simp] theorem Version.fill_length (v : Version) : (v.fill paged pages).length = pages.length := by
  cases v with
  | increment inc => exact inc.fill_length false pages
  | whole content =>
    rw [Version.fill]
    split_ifs
    · exact restore_length _ _
    · rfl

theorem Version.fill_getElem? (v : Version) (b : ℕ) : (v.fill paged pages)[b]? =
    pages[b]?.map fun p => if isMissing p then (v.page? paged b).getD p else p := by
  cases v with
  | increment inc => exact inc.fill_getElem? false pages b
  | whole content =>
    rw [Version.fill, Version.page?]
    cases paged with
    | true => exact restore_getElem? _ _ b
    | false => simp

theorem fillVersions_getElem? (older : List Version) (b : ℕ) : (fillVersions paged pages older)[b]? =
    pages[b]?.map fun p => pick p (laterPages paged b older) := by
  induction older generalizing pages with
  | nil => simp [fillVersions, laterPages, pick]
  | cons v older ih =>
    rw [fillVersions, foldl_cons, ← fillVersions, ih, v.fill_getElem?, Option.map_map]
    congr 1
    funext p
    simp only [Function.comp_apply, laterPages, filterMap_cons]
    cases v.page? paged b with
    | none => simp
    | some q => rfl

/-- Filling with older versions changes nothing exactly when every page covers
what they offer. -/
theorem fillVersions_eq_self_iff (older : List Version) : fillVersions paged pages older = pages ↔
    ∀ b p, pages[b]? = some p → Covers p (laterPages paged b older) := by
  constructor
  · intro h b p hp
    have hb := @fillVersions_getElem? paged pages older b
    rw [h, hp] at hb
    exact (pick_eq_self_iff _ _).mp (Option.some.inj hb).symm
  · intro h
    apply ext_getElem?
    intro b
    rw [fillVersions_getElem?]
    cases hp : pages[b]? with
    | none => rfl
    | some p => rw [Option.map_some, (pick_eq_self_iff _ _).mpr (h b p hp)]

/-- The file while only increments were unwrapped. -/
def currentPages (newest : Increment) (newer : List Increment) : List Page :=
  (range newest.pageCount).map (currentPage newest newer)

section CurrentPages

variable (newest : Increment) (newer : List Increment)

@[simp] theorem currentPages_length : (currentPages newest newer).length = newest.pageCount := by
  rw [currentPages, length_map, length_range]

theorem currentPages_getElem? (b : ℕ) : (currentPages newest newer)[b]? =
    if b < newest.pageCount then some (currentPage newest newer b) else none := by
  rw [currentPages, getElem?_map]
  split_ifs with hb
  · rw [getElem?_range hb, Option.map_some]
  · rw [getElem?_eq_none (by simpa using hb), Option.map_none]

theorem apply_nil_eq_currentPages : newest.apply [] = currentPages newest [] := by
  rw [newest.apply_nil, currentPages, range_eq_range']
  rfl

theorem fill_currentPages (inc : Increment) :
    inc.fill false (currentPages newest newer) = currentPages newest (newer ++ [inc]) := by
  apply ext_getElem?
  intro b
  rw [inc.fill_getElem?, currentPages_getElem?, currentPages_getElem?]
  split_ifs with hb
  · rw [Option.map_some, currentPage, currentPage, filterMap_append, pick, pick, foldl_append]
    cases hq : inc.page? b <;> simp [writable, hq]
  · rfl

theorem fillCount_currentPages (inc : Increment) :
    inc.fillCount false (currentPages newest newer) = writeCount newest newer inc := by
  apply countP_congr
  intro block _
  rw [currentPages_getElem?]
  split_ifs with hb <;> simp [hb, writable]

theorem fillVersions_currentPages_iff (older : List Version) :
    fillVersions paged (currentPages newest newer) older = currentPages newest newer ↔
      ∀ b < newest.pageCount, Covers (currentPage newest newer b) (laterPages paged b older) := by
  rw [fillVersions_eq_self_iff]
  constructor
  · intro h b hb
    exact h b _ (by rw [currentPages_getElem?, if_pos hb])
  · intro h b p hp
    rw [currentPages_getElem?] at hp
    split_ifs at hp with hb
    rw [← Option.some.inj hp]
    exact h b hb

theorem accounted_iff_of_le {written : ℕ} (hw : newest.pageCount ≤ written) (older : List Version) :
    Accounted paged newest newer written older ↔
      fillVersions paged (currentPages newest newer) older = currentPages newest newer := by
  cases older with
  | nil => simp [Accounted, fillVersions]
  | cons v older => cases v <;> rw [Accounted, if_pos hw, fillVersions_currentPages_iff]

end CurrentPages

section Unwrap

variable {v : Version} {inc : Increment} {content : Bytes} {file' : Option Bytes}
  {r : Option FileUnwrapResult}

theorem unwrap_increment (hf : inc.Fits) (path : Text) (pages : List Page) :
    (Version.increment inc).unwrap path (some (joinBlocks pages)) =
      .ok (some (joinBlocks (inc.fill false pages)), some (.wroteIncrementBlocks (inc.fillCount false pages))) := by
  have hfill := writePagesFromIncrement_encode inc hf pages .eof false
  simp only [Version.unwrap, Version.isIncrement, Version.bytes,
    DefaultFileUnwrapper.unwrapExistingFile, writeIncrement, Reader.ofBytes, hfill, if_true]

theorem unwrap_increment_new (hf : inc.Fits) (path : Text) :
    (Version.increment inc).unwrap path none =
      .ok (some (joinBlocks (inc.apply [])), some (.createdFromIncrement (inc.pageCount - inc.blocks.length))) := by
  simp only [Version.unwrap, Version.isIncrement, Version.bytes, unwrapNewFile, Reader.ofBytes,
    createFileFromIncrement_encode inc hf .eof, if_true]

theorem unwrap_whole_new (path : Text) (content : Bytes) :
    (Version.whole content).unwrap path none = .ok (some content, some .completed) := rfl

theorem unwrap_pages (hf : ∀ inc, v = .increment inc → inc.Fits)
    (h : v.unwrap path (some (joinBlocks pages)) = .ok (file', r)) :
    file' = some (joinBlocks (v.fill (isPagedFile (pages.length * databasePageSize) path) pages)) := by
  cases v with
  | increment inc =>
    rw [unwrap_increment (hf inc rfl)] at h
    exact (Prod.mk.inj (Except.ok.inj h)).1.symm
  | whole content =>
    have hfst := restoreMissingPages_fst pages content
    simp only [Version.unwrap, Version.isIncrement, Version.bytes, joinBlocks_length,
      DefaultFileUnwrapper.unwrapExistingFile, Bool.false_eq_true, if_false] at h
    rw [Version.fill]
    split_ifs at h ⊢ with hpaged
    · rcases hrestore : restoreMissingPages (.ofBytes content) (joinBlocks pages) with ⟨f, e | u⟩
      · simp [hrestore] at h
      · rw [hrestore] at hfst h
        rw [← hfst]
        exact (Prod.mk.inj (Except.ok.inj h)).1.symm
    · exact (Prod.mk.inj (Except.ok.inj h)).1.symm

end Unwrap

end WalG.Restore
