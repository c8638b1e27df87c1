import WalG.PageFile.Reverse

/-! # The page view of the reverse unpack

On files of whole pages and well-formed increments the byte-level routines are guarded patches of
the page list: a new file is the increment applied to no pages at all, and a fill writes a page
where the guard lets it.
-/
namespace WalG.PageFile
open Foundation List

variable {diffMap : Bytes} (inc : Increment) (ow : Bool) (base pages : List Page) (rest : Bytes)

/-- The page-level test behind `checkIfMissingPage`. -/
def isMissing (page : Page) : Bool := page.toList.take headerSize = replicate headerSize 0

/-- The pages a fill may write over. -/
def writable (overwrite : Bool) (page : Page) : Bool := overwrite || isMissing page

def Increment.fill (inc : Increment) (overwrite : Bool) (pages : List Page) : List Page :=
  patch (writable overwrite) pages inc.blocks

/-- The number of pages a fill writes. -/
def Increment.fillCount (inc : Increment) (overwrite : Bool) (pages : List Page) : ℕ :=
  patchCount (writable overwrite) pages inc.blocks

def restore (base pages : List Page) : List Page := patch isMissing pages (numbered 0 base)

theorem emptyPage_isMissing : isMissing emptyPage = true := by
  rw [isMissing, decide_eq_true_iff]
  change (replicate databasePageSize (0 : UInt8)).take headerSize = _
  rw [take_replicate]
  rfl

@[simp] theorem Increment.fill_length : (inc.fill ow pages).length = pages.length := patch_length _ _ _

@[simp] theorem restore_length : (restore base pages).length = pages.length := patch_length _ _ _

theorem Increment.fill_getElem? (b : ℕ) :
    (inc.fill ow pages)[b]? =
      pages[b]?.map fun p => if writable ow p then (inc.page? b).getD p else p :=
  patch_getElem? _ _ inc.nodup b

theorem restore_getElem? (b : ℕ) :
    (restore base pages)[b]? =
      pages[b]?.map fun p => if isMissing p then base[b]?.getD p else p := by
  rw [restore, patch_getElem? _ _ (numbered_nodup 0 base), numbered_lookup]

theorem joinBlocks_pageCount : (joinBlocks pages).length / databasePageSize = pages.length := by
  rw [joinBlocks_length]
  exact Nat.mul_div_cancel _ (by decide)

theorem checkIfMissingPage_pages {b : ℕ} (hb : b < pages.length) :
    checkIfMissingPage (joinBlocks pages) b = .ok (isMissing pages[b]) := by
  rw [checkIfMissingPage, readAt_joinBlocks pages b headerSize hb (by decide)]
  rfl

theorem writePage_pages {b : ℕ} (hb : b < pages.length) (p : Page) (rest : Bytes) (e : ReadError) (ow : Bool) :
    writePage (joinBlocks pages) b ⟨p.toList ++ rest, e⟩ ow =
      (joinBlocks (patchAt (writable ow) pages (b, p)), .ok (writable ow pages[b], ⟨rest, e⟩)) := by
  have hpatch : patchAt (writable ow) pages (b, p) =
      if writable ow pages[b] then pages.set b p else pages := by
    rw [patchAt, getElem?_eq_getElem hb, Option.any_some]
  rw [writePage, readFull_page, hpatch]
  cases ow with
  | true => simp [writable, writeAt_joinBlocks_lt pages b p hb]
  | false =>
    simp only [Bool.false_eq_true, if_false, checkIfMissingPage_pages pages hb, writable, Bool.false_or]
    cases hm : isMissing pages[b] with
    | true => simp [writeAt_joinBlocks_lt pages b p hb]
    | false => simp

theorem writePage_end (p : Page) (e : ReadError) :
    writePage (joinBlocks pages) pages.length ⟨p.toList ++ rest, e⟩ true =
      (joinBlocks (pages ++ [p]), .ok (true, ⟨rest, e⟩)) := by
  rw [writePage, readFull_page]
  simp only [if_true, writeAt_joinBlocks_end]

theorem deltaBlockNumbers_table (blocks : List (ℕ × Page)) (i : ℕ) (ht : TableAt diffMap i blocks) :
    deltaBlockNumbers diffMap blocks.length i = .ok (blocks.map Prod.fst) := by
  induction blocks generalizing i with
  | nil => rfl
  | cons b bs ih => simp [deltaBlockNumbers, ht.head, ih (i + 1) ht.tail]

theorem deltaBlockNumbers_of_le (hlen : diffMap.length < 2 ^ 32) (k i : ℕ)
    (hk : (i + k) * sizeofInt32 ≤ diffMap.length) :
    deltaBlockNumbers diffMap k i = .ok ((range' i k).map (blockEntry diffMap)) := by
  induction k generalizing i with
  | zero => rfl
  | succ k ih =>
    have hi : (i + 1) * sizeofInt32 ≤ diffMap.length :=
      le_trans (Nat.mul_le_mul_right _ (by omega)) hk
    rw [deltaBlockNumbers, diffMapBlock_of_le hlen hi]
    rw [ih (i + 1) (by rwa [Nat.add_right_comm, Nat.add_assoc])]
    rfl

/-- Creating pages `i .. i+k-1`, when the pages still to be read belong to
exactly these blocks. -/
theorem createPages_blocks (blockNos : List ℕ) (rest : Bytes) (e : ReadError) (k i : ℕ) (m : ℤ)
    (blocks : List (ℕ × Page)) (pages : List Page) (hlen : pages.length = i)
    (hinc : (blocks.map Prod.fst).Pairwise (· < ·)) (hrange : ∀ b ∈ blocks, i ≤ b.1 ∧ b.1 < i + k)
    (hmem : ∀ j, i ≤ j → (j ∈ blockNos ↔ j ∈ blocks.map Prod.fst)) :
    createPages blockNos k i m ⟨joinBlocks (blocks.map Prod.snd) ++ rest, e⟩ (joinBlocks pages) =
      (joinBlocks (pages ++ (range' i k).map fun j => (blocks.lookup j).getD emptyPage),
        .ok (m - blocks.length, ⟨rest, e⟩)) := by
  induction k generalizing i m blocks pages with
  | zero =>
    have hnil : blocks = [] := by
      apply eq_nil_iff_forall_not_mem.mpr
      intro b hb
      have := hrange b hb
      omega
    subst hnil
    simp [createPages]
  | succ k ih =>
    rw [createPages, range'_succ, map_cons]
    by_cases hi : i ∈ blockNos
    · cases blocks with
      | nil => exact absurd ((hmem i le_rfl).mp hi) (by simp)
      | cons b bs =>
        have hfirst : ∀ c ∈ bs, b.1 < c.1 := fun c hc =>
          (pairwise_cons.mp hinc).1 c.1 (mem_map_of_mem hc)
        have hb : b.1 = i := by
          rcases mem_cons.mp ((hmem i le_rfl).mp hi) with h | h
          · exact h.symm
          · obtain ⟨c, hc, hci⟩ := mem_map.mp h
            have := hfirst c hc
            have := hrange b mem_cons_self
            omega
        have hstep := ih (i + 1) (m - 1) bs (pages ++ [b.2]) (by simp [hlen])
          (pairwise_cons.mp hinc).2
          (fun c hc => by
            have := hfirst c hc
            have := hrange c (mem_cons_of_mem b hc)
            omega)
          (fun j hj => by
            rw [hmem j (by omega), map_cons, mem_cons]
            exact or_iff_right (by omega))
        have hlook : ∀ j ∈ range' (i + 1) k, (bs.lookup j).getD emptyPage =
            ((b :: bs).lookup j).getD emptyPage := by
          intro j hj
          rw [lookup_cons_of_ne]
          rw [mem_range'_1] at hj
          omega
        rw [if_pos hi, map_cons, joinBlocks_cons, append_assoc]
        subst hlen
        rw [writePage_end, ← hb, lookup_cons_self]
        rw [← hb] at hstep hlook
        simp only [hstep, map_congr_left hlook, append_assoc, length_cons]
        simp
        ring
    · have hne : ∀ c ∈ blocks, i ≠ c.1 := fun c hc h =>
        hi ((hmem i le_rfl).mpr (h ▸ mem_map_of_mem hc))
      have hnone : blocks.lookup i = none := lookup_eq_none_of_notMem fun h => by
        obtain ⟨c, hc, hci⟩ := mem_map.mp h
        exact hne c hc hci.symm
      have hstep := ih (i + 1) m blocks (pages ++ [emptyPage]) (by simp [hlen]) hinc
        (fun c hc => by
          have := hne c hc
          have := hrange c hc
          omega)
        (fun j hj => hmem j (by omega))
      subst hlen
      rw [if_neg hi, writeAt_joinBlocks_end, hstep, hnone]
      simp

theorem Increment.apply_nil : inc.apply [] =
    (range' 0 inc.pageCount).map fun b => (inc.blocks.lookup b).getD emptyPage := by
  apply ext_getElem?
  intro b
  by_cases hb : b < inc.pageCount
  · rw [inc.apply_getElem? [] hb]
    simp [hb, Increment.page?]
  · rw [inc.apply_getElem?_ge [] (Nat.not_lt.mp hb), getElem?_eq_none]
    simpa using Nat.not_lt.mp hb

theorem createFileFromIncrement_encode (hf : inc.Fits) (e : ReadError) :
    createFileFromIncrement ⟨inc.encode, e⟩ [] =
      (joinBlocks (inc.apply []), .ok (inc.pageCount - inc.blocks.length)) := by
  have hpc : inc.fileSize / databasePageSize = inc.pageCount :=
    Nat.mul_div_cancel _ (by decide)
  have hloop := createPages_blocks (inc.blocks.map Prod.fst) [] e
    inc.pageCount 0 inc.pageCount inc.blocks [] rfl inc.increasing
    (fun b hb => ⟨Nat.zero_le _, by rw [Nat.zero_add]; exact inc.below b hb⟩) (fun _ _ => Iff.rfl)
  rw [append_nil, joinBlocks_nil, nil_append, ← inc.apply_nil] at hloop
  simp only [createFileFromIncrement, Increment.encode, getIncrementHeaderFields_fits inc hf,
    deltaBlockNumbers_table inc.blocks 0 (inc.tableAt hf), hpc, Increment.pages, hloop]

theorem writePages_blocks (e : ReadError) (ow : Bool)
    (blocks : List (ℕ × Page)) (i c : ℕ) (pages : List Page) (ht : TableAt diffMap i blocks)
    (hnd : (blocks.map Prod.fst).Nodup) :
    writePages diffMap pages.length ow blocks.length i c
        ⟨joinBlocks (blocks.map Prod.snd) ++ rest, e⟩ (joinBlocks pages) =
      (joinBlocks (patch (writable ow) pages blocks), .ok (c + patchCount (writable ow) pages blocks, ⟨rest, e⟩)) := by
  induction blocks generalizing i c pages with
  | nil => simp [writePages, patchCount]
  | cons b bs ih =>
    rw [map_cons, nodup_cons] at hnd
    rw [length_cons, writePages, ht.head, map_cons, joinBlocks_cons, append_assoc]
    have hcount : patchCount (writable ow) pages (b :: bs) = patchCount (writable ow) pages bs +
        if pages[b.1]?.any (writable ow) then 1 else 0 := countP_cons
    by_cases hb : pages.length ≤ b.1
    · have hout : pages[b.1]? = none := getElem?_eq_none hb
      have hskip : patchAt (writable ow) pages b = pages := by simp [patchAt, hout]
      simp only [if_pos hb, Reader.discard_append b.2.toList_length, Except.mapError]
      rw [ih (i + 1) c pages ht.tail hnd.2, patch_cons, hskip, hcount, hout]
      rfl
    · have hb' : b.1 < pages.length := Nat.not_le.mp hb
      have hnext := ih (i + 1) (if writable ow pages[b.1] then c + 1 else c)
        (patchAt (writable ow) pages b) ht.tail hnd.2
      rw [patchAt_length, patchCount_patchAt _ _ _ hnd.1] at hnext
      simp only [if_neg hb, writePage_pages pages hb', hnext]
      rw [patch_cons, hcount, getElem?_eq_getElem hb', Option.any_some]
      split_ifs <;> simp only [Nat.add_assoc, Nat.add_comm 1, Nat.add_zero]

theorem writePagesFromIncrement_encode (hf : inc.Fits) (pages : List Page) (e : ReadError) (ow : Bool) :
    writePagesFromIncrement ⟨inc.encode, e⟩ (joinBlocks pages) ow =
      (joinBlocks (inc.fill ow pages), .ok (inc.fillCount ow pages)) := by
  have hloop := writePages_blocks [] e ow inc.blocks 0 0 pages
    (inc.tableAt hf) inc.nodup
  rw [append_nil, Nat.zero_add] at hloop
  simp only [writePagesFromIncrement, Increment.encode, getIncrementHeaderFields_fits inc hf,
    joinBlocks_pageCount, Increment.pages, hloop, if_true]
  rfl

/-- Restoring from whole pages goes to the end. Bytes behind the last whole page of the base never reach the target. -/
theorem restorePages_run (hrest : rest.length < databasePageSize)
    (k i : ℕ) (pages : List Page) (hk : i + k = pages.length) :
    (restorePages k i (.ofBytes (joinBlocks base ++ rest)) (joinBlocks pages)).1 =
        joinBlocks (patch isMissing pages (numbered i base)) ∧
      (rest = [] → (restorePages k i (.ofBytes (joinBlocks base ++ rest)) (joinBlocks pages)).2 = .ok ()) := by
  induction k generalizing i base pages with
  | zero =>
    refine ⟨?_, fun _ => rfl⟩
    rw [patch_eq_self fun b hb => ?_]
    · rfl
    · have := mem_map_of_mem (f := Prod.fst) hb
      rw [numbered_fst, mem_range'_1] at this
      omega
  | succ k ih =>
    cases base with
    | nil =>
      refine ⟨?_, fun hnil => by rw [hnil]; rfl⟩
      obtain ⟨e, he⟩ := Reader.readFull_short (r := .ofBytes rest) hrest
      rw [restorePages, joinBlocks_nil, nil_append, writePage, readFull, he]
      rfl
    | cons p base =>
      have hi : i < pages.length := by omega
      rw [restorePages, Reader.ofBytes, joinBlocks_cons, append_assoc, writePage_pages pages hi]
      have hw : writable false = isMissing := rfl
      rw [hw, numbered_cons, patch_cons]
      exact ih base (i + 1) _ (by rw [patchAt_length]; omega)

theorem restoreMissingPages_pages : restoreMissingPages (.ofBytes (joinBlocks base)) (joinBlocks pages) =
      (joinBlocks (restore base pages), .ok ()) := by
  obtain ⟨hpages, hok⟩ := restorePages_run base [] (by decide) _ 0 pages (Nat.zero_add _)
  rw [append_nil] at hpages hok
  rw [restoreMissingPages, joinBlocks_pageCount]
  exact Prod.ext hpages (hok rfl)

theorem restoreMissingPages_fst (content : Bytes) :
    (restoreMissingPages (.ofBytes content) (joinBlocks pages)).1 =
      joinBlocks (restore (wholeBlocks databasePageSize content) pages) := by
  obtain ⟨rest, hcontent, hrest⟩ := wholeBlocks_append_rest (n := databasePageSize) content (by decide)
  have hloop := (restorePages_run (wholeBlocks databasePageSize content) rest hrest _ 0 pages (Nat.zero_add _)).1
  rw [← hcontent] at hloop
  rw [restoreMissingPages, joinBlocks_pageCount, hloop]
  rfl

end WalG.PageFile
