import WalG.PageFile.Increment
import WalG.Foundation.Patch

/-! # Applying an increment to an existing file

`applyFileIncrement` works on the bytes of the target: it resizes the file to the announced size and
writes the pages at their block numbers.
-/
namespace WalG.PageFile
open Foundation List

variable {diffMap : Bytes} (inc : Increment) (pages : List Page)

/-- The page loop from entry `i` on, with `k` entries left. -/
def applyPages (diffMap : Bytes) : ℕ → ℕ → Reader → Bytes → Bytes × Except FileError Reader
  | 0, _, increment, file => (file, .ok increment)
  | k + 1, i, increment, file =>
    match diffMapBlock diffMap i with
    | .error e => (file, .error e)
    | .ok blockNo =>
      match readFull increment databasePageSize with
      | .error e => (file, .error e)
      | .ok (page, increment) =>
        applyPages diffMap k (i + 1) increment (writeAt file (blockNo * databasePageSize) page)

/-- The file after the call, absent as `none`, and the call's result. -/
def applyFileIncrement (file : Option Bytes) (increment : Reader)
    (createNewIncrementalFiles : Bool) : Option Bytes × Except FileError Unit :=
  match getIncrementHeaderFields increment with
  | .error e => (file, .error e)
  | .ok (h, increment) =>
    if file = none ∧ createNewIncrementalFiles = false then (none, .error .notExist)
    else if 2 ^ 63 ≤ h.fileSize then (some (file.getD []), .error .invalidSize)
    else
      match applyPages h.diffMap h.diffBlockCount 0 increment
        (truncate (file.getD []) h.fileSize) with
      | (file, .error e) => (some file, .error e)
      | (file, .ok increment) =>
        (some file, if increment.data = [] then .ok () else .error .unexpectedTarData)

/-- The pages of the file after a well-formed increment: stored pages where the
increment has them, otherwise what was there, otherwise zeros. -/
def Increment.apply (inc : Increment) (pages : List Page) : List Page :=
  patch (fun _ => true) (resizeBlocks pages inc.pageCount) inc.blocks

@[simp] theorem Increment.apply_length : (inc.apply pages).length = inc.pageCount := by
  rw [Increment.apply, patch_length, resizeBlocks_length]

theorem Increment.apply_getElem? {b : ℕ} (hb : b < inc.pageCount) :
    (inc.apply pages)[b]? = some ((inc.page? b).getD (pages[b]?.getD emptyPage)) := by
  rw [Increment.apply, patch_getElem? _ _ inc.nodup, resizeBlocks_getElem? _ _ _ hb]
  rfl

theorem Increment.apply_getElem?_ge {b : ℕ} (hb : inc.pageCount ≤ b) : (inc.apply pages)[b]? = none := by
  rw [getElem?_eq_none_iff, Increment.apply_length]
  exact hb

/-- What the loops over the block table see of an increment: entry `i + j` of
the table is the block number of the `j`-th page still to be read. -/
def TableAt (diffMap : Bytes) (i : ℕ) (blocks : List (ℕ × Page)) : Prop :=
  ∀ j b, (blocks.map Prod.fst)[j]? = some b → diffMapBlock diffMap (i + j) = .ok b

theorem TableAt.head {i : ℕ} {b : ℕ × Page} {bs : List (ℕ × Page)}
    (h : TableAt diffMap i (b :: bs)) : diffMapBlock diffMap i = .ok b.1 := h 0 b.1 rfl

theorem TableAt.tail {i : ℕ} {b : ℕ × Page} {bs : List (ℕ × Page)}
    (h : TableAt diffMap i (b :: bs)) : TableAt diffMap (i + 1) bs := by
  intro j c hj
  have := h (j + 1) c (by simpa using hj)
  rwa [← Nat.add_assoc, Nat.add_right_comm] at this

theorem Increment.tableAt (hf : inc.Fits) : TableAt (leTable sizeofInt32 inc.blockNos) 0 inc.blocks := by
  intro j b hj
  rw [Nat.zero_add]
  exact diffMapBlock_table inc hf hj

theorem readFull_page (p : Page) (rest : Bytes) (e : ReadError) :
    readFull ⟨p.toList ++ rest, e⟩ databasePageSize = .ok (p.toList, ⟨rest, e⟩) :=
  readFull_append p.toList_length e

theorem applyPages_blocks (rest : Bytes) (e : ReadError)
    (blocks : List (ℕ × Page)) (i : ℕ) (pages : List Page) (ht : TableAt diffMap i blocks)
    (hlt : ∀ b ∈ blocks, b.1 < pages.length) :
    applyPages diffMap blocks.length i ⟨joinBlocks (blocks.map Prod.snd) ++ rest, e⟩
        (joinBlocks pages) =
      (joinBlocks (patch (fun _ => true) pages blocks), .ok ⟨rest, e⟩) := by
  induction blocks generalizing i pages with
  | nil => rfl
  | cons b bs ih =>
    have hb : b.1 < pages.length := hlt b mem_cons_self
    have hset : patchAt (fun _ => true) pages b = pages.set b.1 b.2 := by
      simp [patchAt, hb]
    rw [length_cons, applyPages, ht.head, map_cons, joinBlocks_cons, append_assoc]
    simp only [readFull_page, writeAt_joinBlocks_lt pages b.1 b.2 hb]
    rw [ih (i + 1) _ ht.tail (by simpa using fun c d hc => hlt (c, d) (mem_cons_of_mem b hc)), patch_cons, hset]

/-- On whole pages and a well-formed increment the byte-level function is the
page-wise one. -/
theorem applyFileIncrement_encode (hf : inc.Fits) (pages : List Page) (e : ReadError) (c : Bool) :
    applyFileIncrement (some (joinBlocks pages)) ⟨inc.encode, e⟩ c =
      (some (joinBlocks (inc.apply pages)), .ok ()) := by
  have hsize : ¬ 2 ^ 63 ≤ inc.pageCount * databasePageSize := Nat.not_le.mpr inc.size_lt
  have hsome : ¬ (some (joinBlocks pages) = none ∧ c = false) := by simp
  have hloop := applyPages_blocks [] e inc.blocks 0
    (resizeBlocks pages inc.pageCount) (inc.tableAt hf) (by simpa using fun a b => inc.below (a, b))
  rw [append_nil] at hloop
  simp only [applyFileIncrement, Increment.encode, getIncrementHeaderFields_fits inc hf,
    if_neg hsome, Increment.fileSize, if_neg hsize, Option.getD_some, truncate_joinBlocks,
    Increment.pages, hloop, if_true]
  rfl

/-- When the block table wraps, the page loop panics before its end. -/
theorem applyPages_wrapped (k i : ℕ) (r : Reader) (f : Bytes) {m : ℕ}
    (hm : diffMapBlock diffMap m = .error .indexOutOfRange) (him : i ≤ m) (hmk : m < i + k) :
    ∃ f' e, applyPages diffMap k i r f = (f', .error e) := by
  induction k generalizing i r f with
  | zero => omega
  | succ k ih =>
    rw [applyPages]
    by_cases hi : i = m
    · subst hi
      rw [hm]
      exact ⟨_, _, rfl⟩
    · cases hb : diffMapBlock diffMap i with
      | error e => exact ⟨_, _, rfl⟩
      | ok b =>
        cases hr : readFull r databasePageSize with
        | error e => exact ⟨_, _, rfl⟩
        | ok p => exact ih (i + 1) p.2 _ (by omega) (by omega)

/-- A well-formed increment whose table wraps is never applied. -/
theorem applyFileIncrement_not_fits (hf : ¬ inc.Fits) (file : Option Bytes) (e : ReadError) (c : Bool) :
    ∃ err, (applyFileIncrement file ⟨inc.encode, e⟩ c).2 = .error err := by
  unfold applyFileIncrement Increment.encode
  cases hd : getIncrementHeaderFields ⟨inc.header ++ joinBlocks inc.pages, e⟩ with
  | error err => exact ⟨_, rfl⟩
  | ok p =>
    obtain ⟨h, r⟩ := p
    obtain ⟨m, hm, hlt⟩ := inc.table_wrapped hf hd
    obtain ⟨f', err, hloop⟩ := applyPages_wrapped h.diffBlockCount 0 r
      (truncate (file.getD []) h.fileSize) hm (Nat.zero_le m) (by omega)
    simp only [hloop]
    split_ifs <;> exact ⟨_, rfl⟩

end WalG.PageFile
