import WalG.PageFile.Fill

/-! # Reverse and plain unpack of one delta chain

A chain is listed from its newest increment to its oldest.
-/
namespace WalG.PageFile
open Foundation List

variable (newest : Increment) (older incs : List Increment) (base : List Page)

def applyAll : List Increment → Bytes → Except FileError Bytes
  | [], file => .ok file
  | inc :: incs, file =>
    match applyFileIncrement (some file) (.ofBytes inc.encode) false with
    | (_, .error e) => .error e
    | (file', .ok ()) => applyAll incs (file'.getD file)

def fillAll : List Increment → Bytes → Except FileError Bytes
  | [], file => .ok file
  | inc :: older, file =>
    match writePagesFromIncrement (.ofBytes inc.encode) file false with
    | (_, .error e) => .error e
    | (file, .ok _) => fillAll older file

def unpackPlain (newest : Increment) (older : List Increment) (base : Bytes) :
    Except FileError Bytes := applyAll (older.reverse ++ [newest]) base

def unpackReverse (newest : Increment) (older : List Increment) (base : Bytes) :
    Except FileError Bytes :=
  match createFileFromIncrement (.ofBytes newest.encode) [] with
  | (_, .error e) => .error e
  | (file, .ok _) =>
    match fillAll older file with
    | .error e => .error e
    | .ok file =>
      match restoreMissingPages (.ofBytes base) file with
      | (_, .error e) => .error e
      | (file, .ok ()) => .ok file

/-- The pages after applying a newest-first list of increments. -/
def plainPages (base : List Page) (incs : List Increment) : List Page :=
  incs.foldr Increment.apply base

def reversePages (newest : Increment) (older : List Increment) (base : List Page) : List Page :=
  restore base (older.foldl (fun pages inc => inc.fill false pages) (newest.apply []))

theorem applyAll_pages (hf : ∀ inc ∈ incs, inc.Fits) (pages : List Page) :
    applyAll incs (joinBlocks pages) =
      .ok (joinBlocks (incs.foldl (fun pages inc => inc.apply pages) pages)) := by
  induction incs generalizing pages with
  | nil => rfl
  | cons inc incs ih =>
    simp only [applyAll, Reader.ofBytes, applyFileIncrement_encode inc (hf inc mem_cons_self) pages]
    exact ih (fun i hi => hf i (mem_cons_of_mem inc hi)) _

theorem applyAll_not_fits (hf : ¬ ∀ inc ∈ incs, inc.Fits) (file : Bytes) : ∃ e, applyAll incs file = .error e := by
  induction incs generalizing file with
  | nil => exact absurd (by simp) hf
  | cons inc incs ih =>
    unfold applyAll
    by_cases hinc : inc.Fits
    · have hrest : ¬ ∀ i ∈ incs, i.Fits := fun h => hf (forall_mem_cons.mpr ⟨hinc, h⟩)
      rcases applyFileIncrement (some file) (.ofBytes inc.encode) false with ⟨f, e | _⟩
      · exact ⟨e, rfl⟩
      · exact ih hrest _
    · obtain ⟨e, he⟩ := applyFileIncrement_not_fits inc hinc (some file) .eof false
      rcases hr : applyFileIncrement (some file) (.ofBytes inc.encode) false with ⟨f, e' | _⟩
      · exact ⟨e', rfl⟩
      · rw [Reader.ofBytes] at hr
        rw [hr] at he
        cases he

theorem fillAll_pages (hf : ∀ inc ∈ older, inc.Fits) (pages : List Page) :
    fillAll older (joinBlocks pages) =
      .ok (joinBlocks (older.foldl (fun pages inc => inc.fill false pages) pages)) := by
  induction older generalizing pages with
  | nil => rfl
  | cons inc older ih =>
    simp only [fillAll, Reader.ofBytes, writePagesFromIncrement_encode inc (hf inc mem_cons_self) pages]
    exact ih (fun i hi => hf i (mem_cons_of_mem inc hi)) _

theorem unpackPlain_pages (hf : ∀ inc ∈ newest :: older, inc.Fits) :
    unpackPlain newest older (joinBlocks base) =
      .ok (joinBlocks (plainPages base (newest :: older))) := by
  rw [unpackPlain, applyAll_pages _ (by simpa [or_comm] using hf), plainPages, foldl_append, foldl_reverse]
  rfl

theorem unpackReverse_pages (hf : ∀ inc ∈ newest :: older, inc.Fits) :
    unpackReverse newest older (joinBlocks base) =
      .ok (joinBlocks (reversePages newest older base)) := by
  rw [forall_mem_cons] at hf
  have hcreate := createFileFromIncrement_encode newest hf.1 .eof
  simp only [unpackReverse, Reader.ofBytes, hcreate, fillAll_pages older hf.2]
  have hrestore := restoreMissingPages_pages base
    (older.foldl (fun pages inc => inc.fill false pages) (newest.apply []))
  simp only [Reader.ofBytes] at hrestore
  simp only [hrestore]
  rfl

end WalG.PageFile
