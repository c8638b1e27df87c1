import WalG.PageFile.ReverseChain

/-! # The history of a block in a delta chain

The pages stored for one block, newest first, decide what both unpack orders put there.
-/
namespace WalG.PageFile
open Foundation List

variable {page : Page} (newest : Increment) (older : List Increment) (base : List Page)

/-- The reverse unpack's choice: a page gives way to an older one while its
header is zero. -/
def pick (page : Page) (older : List Page) : Page :=
  older.foldl (fun p q => if isMissing p then q else p) page

/-- A page shows through over the older ones: its header is not zero, or no
older header is nonzero and the oldest page is the same. -/
def Covers (page : Page) (older : List Page) : Prop :=
  isMissing page = false ∨ ((∀ q ∈ older, isMissing q = true) ∧ older.getLast?.getD page = page)

instance (page : Page) (older : List Page) : Decidable (Covers page older) :=
  inferInstanceAs (Decidable (_ ∨ _))

theorem pick_of_not_missing (h : isMissing page = false) (older : List Page) : pick page older = page := by
  induction older with
  | nil => rfl
  | cons q older ih => simpa [pick, h] using ih

theorem pick_of_missing (h : isMissing page = true) {older : List Page}
    (hall : ∀ q ∈ older, isMissing q = true) : pick page older = older.getLast?.getD page := by
  induction older generalizing page with
  | nil => rfl
  | cons q older ih =>
    rw [forall_mem_cons] at hall
    have hstep : pick page (q :: older) = pick q older := by simp [pick, h]
    rw [hstep, ih hall.1 hall.2, getLast?_cons, Option.getD_some]

theorem pick_not_missing {older : List Page} {q : Page} (hq : q ∈ older)
    (hm : isMissing q = false) (page : Page) : isMissing (pick page older) = false := by
  induction older generalizing page with
  | nil => simp at hq
  | cons r older ih =>
    have hstep : pick page (r :: older) = pick (if isMissing page then r else page) older := rfl
    rw [hstep]
    rcases mem_cons.mp hq with rfl | hq
    · have hhead : isMissing (if isMissing page then q else page) = false := by
        cases hp : isMissing page <;> simp [hp, hm]
      rw [pick_of_not_missing hhead, hhead]
    · exact ih hq _

theorem not_covers_emptyPage (h : isMissing page = false) : ¬ Covers emptyPage [page] := by
  rintro (hempty | ⟨hall, -⟩)
  · rw [emptyPage_isMissing] at hempty
    cases hempty
  · rw [hall page (mem_singleton_self page)] at h
    cases h

theorem pick_eq_self_iff (page : Page) (older : List Page) : pick page older = page ↔ Covers page older := by
  unfold Covers
  cases hp : isMissing page with
  | false => simp [pick_of_not_missing hp]
  | true =>
    simp only [Bool.true_eq_false, false_or]
    constructor
    · intro h
      have hall : ∀ q ∈ older, isMissing q = true := by
        intro q hq
        by_contra hm
        have := pick_not_missing hq (Bool.not_eq_true _ ▸ hm) page
        rw [h, hp] at this
        cases this
      exact ⟨hall, by rw [← pick_of_missing hp hall]; exact h⟩
    · rintro ⟨hall, hlast⟩
      rw [pick_of_missing hp hall, hlast]

/-- The pages stored for a block, newest first, the base file's last. -/
def olderPages (b : ℕ) (base : List Page) (incs : List Increment) : List Page :=
  incs.filterMap (·.page? b) ++ base[b]?.toList

/-- Walking from the newest increment back: the first one that stores the block
has to cover all older pages with its page, the first one whose file ended
before the block with an empty page. A block that no increment touches is safe. -/
def SafeBlock (b : ℕ) (base : List Page) : List Increment → Prop
  | [] => True
  | inc :: older =>
    match inc.page? b with
    | some page => Covers page (olderPages b base older)
    | none =>
      if inc.pageCount ≤ b then Covers emptyPage (olderPages b base older)
      else SafeBlock b base older

theorem fill_foldl_getElem? (b : ℕ) (pages : List Page) :
    (older.foldl (fun pages inc => inc.fill false pages) pages)[b]? =
      pages[b]?.map fun p => pick p (older.filterMap (·.page? b)) := by
  induction older generalizing pages with
  | nil => simp [pick]
  | cons inc older ih =>
    rw [foldl_cons, ih, inc.fill_getElem?, Option.map_map]
    congr 1
    funext p
    cases hq : inc.page? b with
    | none => simp [writable, hq]
    | some q => simp [writable, pick, hq]

theorem reversePages_getElem? {b : ℕ} (hb : b < newest.pageCount) :
    (reversePages newest older base)[b]? =
      some (pick ((newest.page? b).getD emptyPage) (olderPages b base older)) := by
  rw [reversePages, restore_getElem?, fill_foldl_getElem?, newest.apply_getElem? [] hb,
    Option.map_some, Option.map_some]
  unfold olderPages pick
  rw [foldl_append]
  cases base[b]? <;> simp

theorem reversePages_length : (reversePages newest older base).length = newest.pageCount := by
  rw [reversePages, restore_length, ← newest.apply_length []]
  generalize newest.apply [] = pages
  induction older generalizing pages with
  | nil => rfl
  | cons inc older ih => rw [foldl_cons, ih, inc.fill_length]

theorem page?_lt (inc : Increment) {b : ℕ} {p : Page} (h : inc.page? b = some p) : b < inc.pageCount := by
  obtain ⟨l, r, hl, -⟩ := lookup_eq_some_iff.mp h
  exact inc.below (b, p) (by rw [hl]; simp)

/-- For a block of the final file, plain unpack shows the page that the reverse
choice starts with unless an older one wins. -/
theorem pick_eq_plainPages_iff (b : ℕ) (base : List Page) (incs : List Increment) :
    pick emptyPage (olderPages b base incs) = (plainPages base incs)[b]?.getD emptyPage ↔
      SafeBlock b base incs := by
  induction incs with
  | nil =>
    have hpick : pick emptyPage base[b]?.toList = base[b]?.getD emptyPage := by
      cases base[b]? with
      | none => rfl
      | some p => simp [pick, emptyPage_isMissing]
    simpa [olderPages, plainPages, SafeBlock] using hpick
  | cons inc older ih =>
    change _ = (inc.apply (plainPages base older))[b]?.getD emptyPage ↔ _
    unfold SafeBlock
    cases hp : inc.page? b with
    | some p =>
      have hstep : pick emptyPage (olderPages b base (inc :: older)) =
          pick p (olderPages b base older) := by
        simp [olderPages, pick, hp, emptyPage_isMissing]
      rw [inc.apply_getElem? _ (page?_lt inc hp), hp, hstep]
      exact pick_eq_self_iff p _
    | none =>
      have hskip : olderPages b base (inc :: older) = olderPages b base older := by
        simp [olderPages, hp]
      rw [hskip]
      by_cases hb : inc.pageCount ≤ b
      · rw [if_pos hb, inc.apply_getElem?_ge _ hb]
        exact pick_eq_self_iff emptyPage _
      · rw [if_neg hb, inc.apply_getElem? _ (Nat.not_le.mp hb), hp]
        exact ih

theorem reversePages_eq_plainPages_iff : reversePages newest older base = plainPages base (newest :: older) ↔
      ∀ b < newest.pageCount, SafeBlock b base (newest :: older) := by
  have hblock : ∀ b < newest.pageCount,
      ((reversePages newest older base)[b]? = (plainPages base (newest :: older))[b]? ↔
        SafeBlock b base (newest :: older)) := by
    intro b hb
    have hplain : (plainPages base (newest :: older))[b]? =
        some ((plainPages base (newest :: older))[b]?.getD emptyPage) := by
      change (newest.apply _)[b]? = some ((newest.apply _)[b]?.getD emptyPage)
      rw [newest.apply_getElem? _ hb, Option.getD_some]
    have hstart : pick ((newest.page? b).getD emptyPage) (olderPages b base older) =
        pick emptyPage (olderPages b base (newest :: older)) := by
      cases hp : newest.page? b <;> simp [olderPages, pick, hp, emptyPage_isMissing]
    rw [reversePages_getElem? newest older base hb, hplain, hstart, Option.some.injEq]
    exact pick_eq_plainPages_iff b base (newest :: older)
  constructor
  · intro h b hb
    rw [← hblock b hb, h]
  · intro h
    apply ext_getElem?
    intro b
    by_cases hb : b < newest.pageCount
    · exact (hblock b hb).mpr (h b hb)
    · rw [getElem?_eq_none (by rw [reversePages_length]; exact Nat.not_lt.mp hb)]
      change none = (newest.apply _)[b]?
      rw [newest.apply_getElem?_ge _ (Nat.not_lt.mp hb)]

/-- Reverse and plain unpack of a chain both succeed with the same content
exactly when no block table wraps and every block of the final file is safe. -/
theorem unpackReverse_agrees_unpackPlain_iff (newest : Increment) (older : List Increment) (base : List Page) :
    (∃ content, unpackReverse newest older (joinBlocks base) = .ok content ∧
        unpackPlain newest older (joinBlocks base) = .ok content) ↔
      (∀ inc ∈ newest :: older, inc.Fits) ∧
        ∀ b < newest.pageCount, SafeBlock b base (newest :: older) := by
  by_cases hf : ∀ inc ∈ newest :: older, inc.Fits
  · rw [unpackReverse_pages newest older base hf, unpackPlain_pages newest older base hf,
      ← reversePages_eq_plainPages_iff]
    constructor
    · rintro ⟨content, hrev, hplain⟩
      have hbytes := Except.ok.inj (hrev.trans hplain.symm)
      exact ⟨hf, joinBlocks_injective (by decide) hbytes⟩
    · rintro ⟨-, heq⟩
      exact ⟨_, rfl, by rw [heq]⟩
  · obtain ⟨e, he⟩ := applyAll_not_fits (older.reverse ++ [newest])
      (by simpa [or_comm] using hf) (joinBlocks base)
    rw [unpackPlain, he]
    constructor
    · rintro ⟨content, -, hplain⟩
      cases hplain
    · rintro ⟨h, -⟩
      exact absurd h hf

/-- A one-page file whose page changed. -/
def singlePage (page : Page) : Increment :=
  .single 1 0 page Nat.one_pos (by decide)

def filledPage (byte : UInt8) : Page := List.Vector.replicate databasePageSize byte

theorem filledPage_not_missing {byte : UInt8} (h : byte ≠ 0) : isMissing (filledPage byte) = false := by
  rw [isMissing, decide_eq_false_iff_not]
  change (replicate databasePageSize byte).take headerSize ≠ _
  rw [take_replicate]
  intro heq
  have hmem : byte ∈ replicate headerSize (0 : UInt8) := by
    rw [← heq]
    exact mem_replicate.mpr ⟨by decide, rfl⟩
  exact h (eq_of_mem_replicate hmem)

/-- A page that was zeroed after the base backup comes back from the base. -/
theorem unpackReverse_revives_zeroed_page :
    ¬ ∃ content, unpackReverse (singlePage emptyPage) [] (joinBlocks [filledPage 1]) = .ok content ∧
      unpackPlain (singlePage emptyPage) [] (joinBlocks [filledPage 1]) = .ok content := by
  have hf : ∀ inc ∈ [singlePage emptyPage], inc.Fits := by
    intro inc hinc
    rw [mem_singleton.mp hinc]
    decide
  rw [unpackReverse_pages _ _ _ hf, unpackPlain_pages _ _ _ hf]
  rintro ⟨content, hrev, hplain⟩
  have hpages := joinBlocks_injective (by decide) (Except.ok.inj (hrev.trans hplain.symm))
  have hsafe := (reversePages_eq_plainPages_iff _ _ _).mp hpages 0 (by decide)
  exact not_covers_emptyPage (filledPage_not_missing (by decide)) hsafe

end WalG.PageFile
