import WalG.PageFile.Fill

/-! # The loops of the decoders on arbitrary input

The length of the block table is a product in 32 bits that also bounds the loops over the table, so
a block count of 2^30 or more runs past it.
-/
namespace WalG.PageFile
open Foundation List

section Header

variable {r r' : Reader} {n : ℕ} {e : FileError}

theorem mapError_read_error {α : Type} {x : Except ReadError α} (h : x.mapError .read = .error e) :
    ∃ e', e = .read e' := by
  obtain ⟨e', -, he⟩ := mapError_error_iff.mp h
  exact ⟨e', he.symm⟩

theorem readFull_error (h : readFull r n = .error e) : ∃ e', e = .read e' := mapError_read_error h

theorem readFull_ok_iff {bs : Bytes} :
    readFull r n = .ok (bs, r') ↔ bs.length = n ∧ r.data = bs ++ r'.data ∧ r'.ending = r.ending :=
  mapError_ok_iff.trans Reader.readFull_iff

theorem readField_ok_iff {w : ℕ} :
    readField r w = .ok (n, r') ↔ n < 256 ^ w ∧ r.data = leBytes w n ++ r'.data ∧ r'.ending = r.ending :=
  mapError_ok_iff.trans Reader.readLE_iff

/-- The table of a decoded header is as long as the product in 32 bits, whatever the count. -/
theorem getIncrementHeaderFields_ok {increment rest : Reader} {h : IncrementHeader}
    (hd : getIncrementHeaderFields increment = .ok (h, rest)) : h.diffBlockCount < 2 ^ 32 ∧
      h.diffMap.length = h.diffBlockCount * sizeofInt32 % 2 ^ 32 ∧ rest.ending = increment.ending := by
  obtain ⟨r₁, h₁, hd⟩ := bind_ok hd
  obtain ⟨⟨fileSize, r₂⟩, h₂, hd⟩ := bind_ok hd
  obtain ⟨⟨diffBlockCount, r₃⟩, h₃, hd⟩ := bind_ok hd
  obtain ⟨⟨diffMap, r₄⟩, h₄, hd⟩ := bind_ok hd
  cases hd
  obtain ⟨⟨bytes, r₀⟩, h₀, h₁⟩ := bind_ok h₁
  dsimp only at h₁
  split_ifs at h₁
  cases h₁
  obtain ⟨-, -, hending₀⟩ := readFull_ok_iff.mp h₀
  obtain ⟨-, -, hending₂⟩ := readField_ok_iff.mp h₂
  obtain ⟨hcount, -, hending₃⟩ := readField_ok_iff.mp h₃
  obtain ⟨hlen, -, hending₄⟩ := readFull_ok_iff.mp h₄
  exact ⟨hcount, hlen, hending₄.trans (hending₃.trans (hending₂.trans hending₀))⟩

theorem bind_ne_error {ε α β : Type} {x : Except ε α} {f : α → Except ε β} {e : ε} (hx : x ≠ .error e)
    (hf : ∀ a, f a ≠ .error e) : (x >>= f) ≠ .error e := by
  cases x with
  | error e' => exact fun h => hx (congrArg Except.error (Except.error.inj h))
  | ok a => exact hf a

theorem mapError_read_ne_panic {α : Type} (x : Except ReadError α) :
    x.mapError FileError.read ≠ .error .indexOutOfRange := by
  intro h
  obtain ⟨e', he'⟩ := mapError_read_error h
  cases he'

theorem getIncrementHeaderFields_ne_panic (r : Reader) : getIncrementHeaderFields r ≠ .error .indexOutOfRange := by
  refine bind_ne_error (bind_ne_error (mapError_read_ne_panic _) fun _ => ?_) fun _ =>
    bind_ne_error (mapError_read_ne_panic _) fun _ => bind_ne_error (mapError_read_ne_panic _) fun _ =>
    bind_ne_error (mapError_read_ne_panic _) fun _ => by simp [pure, Except.pure]
  dsimp only
  split_ifs <;> simp

theorem diffMapBlock_ok_of_lt {diffMap : Bytes} {count i : ℕ} (hlen : diffMap.length = count * sizeofInt32 % 2 ^ 32)
    (hcount : count < 2 ^ 30) (hi : i < count) : diffMapBlock diffMap i = .ok (blockEntry diffMap i) := by
  unfold sizeofInt32 at hlen
  refine diffMapBlock_of_le (by omega) ?_
  unfold sizeofInt32
  omega

/-- From a count of 2^30 on, the loops ask for an entry past the end of the table. -/
theorem exists_diffMapBlock_error {diffMap : Bytes} {count : ℕ} (hlen : diffMap.length = count * sizeofInt32 % 2 ^ 32)
    (hcount : 2 ^ 30 ≤ count) : ∃ i < count, diffMapBlock diffMap i = .error .indexOutOfRange := by
  unfold sizeofInt32 at hlen
  refine ⟨count % 2 ^ 30, by omega, diffMapBlock_past (by omega) ?_⟩
  unfold sizeofInt32
  omega

theorem deltaBlockNumbers_error {diffMap : Bytes} {m : ℕ} (hm : diffMapBlock diffMap m = .error .indexOutOfRange)
    (k i : ℕ) (him : i ≤ m) (hmk : m < i + k) : deltaBlockNumbers diffMap k i = .error .indexOutOfRange := by
  induction k generalizing i with
  | zero => omega
  | succ k ih =>
    rw [deltaBlockNumbers]
    rcases Nat.eq_or_lt_of_le him with rfl | hlt
    · rw [hm]
    · have hrest := ih (i + 1) hlt (by omega)
      cases hblock : diffMapBlock diffMap i with
      | ok blockNo => rw [hrest]
      | error e =>
        unfold diffMapBlock at hblock
        dsimp only at hblock
        split_ifs at hblock
        rw [← hblock]

/-- The block numbers of the table, for a count that does not overflow. -/
def announcedBlocks (h : IncrementHeader) : List ℕ := (range h.diffBlockCount).map (blockEntry h.diffMap)

theorem deltaBlockNumbers_announced {increment rest : Reader} {h : IncrementHeader}
    (hd : getIncrementHeaderFields increment = .ok (h, rest)) :
    deltaBlockNumbers h.diffMap h.diffBlockCount 0 =
      if h.diffBlockCount < 2 ^ 30 then .ok (announcedBlocks h) else .error .indexOutOfRange := by
  obtain ⟨-, hlen, -⟩ := getIncrementHeaderFields_ok hd
  split_ifs with hcount
  · unfold sizeofInt32 at hlen
    rw [deltaBlockNumbers_of_le (by omega) _ _ (by unfold sizeofInt32; omega), announcedBlocks, range_eq_range']
  · obtain ⟨m, hlt, hm⟩ := exists_diffMapBlock_error hlen (not_lt.mp hcount)
    exact deltaBlockNumbers_error hm _ _ (Nat.zero_le m) (by omega)

end Header

section Loops

variable (r : Reader) {target diffMap : Bytes} {k i : ℕ}

/-- A loop that ends has taken one page from the stream for each entry of the table. -/
theorem applyPages_data {r r' : Reader} {file file' : Bytes}
    (h : applyPages diffMap k i r file = (file', .ok r')) : r.data.length = k * databasePageSize + r'.data.length := by
  induction k generalizing i r file with
  | zero =>
    obtain ⟨-, hr⟩ := Prod.mk.inj h
    cases hr
    rw [Nat.zero_mul, Nat.zero_add]
  | succ k ih =>
    rw [applyPages] at h
    cases hblock : diffMapBlock diffMap i with
    | error e =>
      rw [hblock] at h
      cases h
    | ok blockNo =>
      rw [hblock] at h
      cases hread : readFull r databasePageSize with
      | error e =>
        rw [hread] at h
        cases h
      | ok result =>
        obtain ⟨page, r₁⟩ := result
        rw [hread] at h
        obtain ⟨hpage, hdata, -⟩ := readFull_ok_iff.mp hread
        rw [hdata, length_append, hpage, ih h, Nat.succ_mul]
        omega

/-- The loop panics at the table only: what is missing of the pages is an error. -/
theorem applyPages_ne_panic {r : Reader} {file : Bytes}
    (h : ∀ j < i + k, diffMapBlock diffMap j = .ok (blockEntry diffMap j)) :
    (applyPages diffMap k i r file).2 ≠ .error .indexOutOfRange := by
  induction k generalizing i r file with
  | zero => simp [applyPages]
  | succ k ih =>
    rw [applyPages, h i (by omega)]
    cases hread : readFull r databasePageSize with
    | error e =>
      obtain ⟨e', rfl⟩ := readFull_error hread
      simp
    | ok result => exact ih fun j hj => h j (by omega)

theorem checkIfMissingPage_error {blockNo : ℕ} {e : FileError}
    (h : checkIfMissingPage target blockNo = .error e) : e = .read .eof := by
  unfold checkIfMissingPage at h
  cases hread : readAt target (blockNo * databasePageSize) headerSize with
  | none =>
    rw [hread] at h
    exact (Except.error.inj h).symm
  | some bytes =>
    rw [hread] at h
    cases h

/-- A page is taken from the stream whether or not it is written. -/
theorem writePage_spec (target : Bytes) (blockNo : ℕ) (content : Reader) (overwrite : Bool) :
    (∃ e, (writePage target blockNo content overwrite).2 = .error (.read e)) ∨
      ∃ wrote content', (writePage target blockNo content overwrite).2 = .ok (wrote, content') ∧
        content.data.length = databasePageSize + content'.data.length := by
  unfold writePage
  cases hread : readFull content databasePageSize with
  | error e =>
    obtain ⟨e', rfl⟩ := readFull_error hread
    exact .inl ⟨e', rfl⟩
  | ok result =>
    obtain ⟨page, content'⟩ := result
    obtain ⟨hpage, hdata, -⟩ := readFull_ok_iff.mp hread
    have hlength : content.data.length = databasePageSize + content'.data.length := by
      rw [hdata, length_append, hpage]
    split_ifs
    · exact .inr ⟨_, _, rfl, hlength⟩
    · cases hmissing : checkIfMissingPage target blockNo with
      | error e =>
        rw [checkIfMissingPage_error hmissing]
        exact .inl ⟨_, rfl⟩
      | ok missing => cases missing <;> exact .inr ⟨_, _, rfl, hlength⟩

theorem discard_spec (n : ℕ) : (∃ e, (r.discard n).mapError FileError.read = .error (.read e)) ∨
    ∃ r', (r.discard n).mapError FileError.read = .ok r' ∧ r.data.length = n + r'.data.length := by
  unfold Reader.discard
  split_ifs with hle
  · exact .inr ⟨_, rfl, by rw [length_drop]; omega⟩
  · exact .inl ⟨_, rfl⟩

theorem writePages_data {targetPageCount : ℕ} {overwrite : Bool} {count count' : ℕ} {r r' : Reader} {target' : Bytes}
    (h : writePages diffMap targetPageCount overwrite k i count r target = (target', .ok (count', r'))) :
    r.data.length = k * databasePageSize + r'.data.length := by
  induction k generalizing i count r target with
  | zero =>
    obtain ⟨-, hr⟩ := Prod.mk.inj h
    cases hr
    rw [Nat.zero_mul, Nat.zero_add]
  | succ k ih =>
    rw [writePages] at h
    cases hblock : diffMapBlock diffMap i with
    | error e =>
      rw [hblock] at h
      cases h
    | ok blockNo =>
      rw [hblock] at h
      dsimp only at h
      split_ifs at h
      · rcases discard_spec r databasePageSize with ⟨e, he⟩ | ⟨r₁, hr₁, hlength⟩
        · rw [he] at h
          cases h
        · rw [hr₁] at h
          rw [hlength, ih h, Nat.succ_mul]
          omega
      · rcases writePage_spec target blockNo r overwrite with ⟨e, he⟩ | ⟨wrote, r₁, hr₁, hlength⟩
        · rw [← Prod.mk.eta (p := writePage target blockNo r overwrite), he] at h
          cases h
        · rw [← Prod.mk.eta (p := writePage target blockNo r overwrite), hr₁] at h
          rw [hlength, ih h, Nat.succ_mul]
          omega

theorem writePages_ne_panic {targetPageCount : ℕ} {overwrite : Bool} {count : ℕ} {r : Reader}
    (h : ∀ j < i + k, diffMapBlock diffMap j = .ok (blockEntry diffMap j)) :
    (writePages diffMap targetPageCount overwrite k i count r target).2 ≠ .error .indexOutOfRange := by
  induction k generalizing i count r target with
  | zero => simp [writePages]
  | succ k ih =>
    have hnext : ∀ j < i + 1 + k, diffMapBlock diffMap j = .ok (blockEntry diffMap j) := fun j hj => h j (by omega)
    rw [writePages, h i (by omega)]
    dsimp only
    split_ifs
    · rcases discard_spec r databasePageSize with ⟨e, he⟩ | ⟨r₁, hr₁, -⟩
      · rw [he]
        simp
      · rw [hr₁]
        exact ih hnext
    · rcases writePage_spec target (blockEntry diffMap i) r overwrite with ⟨e, he⟩ | ⟨wrote, r₁, hr₁, -⟩
      · rw [← Prod.mk.eta (p := writePage target (blockEntry diffMap i) r overwrite), he]
        simp
      · rw [← Prod.mk.eta (p := writePage target (blockEntry diffMap i) r overwrite), hr₁]
        exact ih hnext

theorem readFull_spec (n : ℕ) :
    (∃ bs r', readFull r n = .ok (bs, r') ∧ r.data.length = n + r'.data.length) ∨
      (∃ e, readFull r n = .error (.read e)) ∧ r.data.length < n := by
  cases hread : readFull r n with
  | error e =>
    obtain ⟨e', rfl⟩ := readFull_error hread
    refine .inr ⟨⟨e', rfl⟩, ?_⟩
    by_contra hle
    rw [readFull, Reader.readFull, if_pos (not_lt.mp hle)] at hread
    cases hread
  | ok result =>
    obtain ⟨hlen, hdata, -⟩ := readFull_ok_iff.mp hread
    exact .inl ⟨_, _, rfl, by rw [hdata, length_append, hlen]⟩

/-- The pages that a creation looks for: one for each distinct block number below the page count. -/
def pagesWanted (blockNos : List ℕ) (k i : ℕ) : ℕ := (range' i k).countP (· ∈ blockNos)

/-- The creation succeeds exactly if the stream has all pages that are looked for. -/
theorem createPages_spec (blockNos : List ℕ) (k i : ℕ) (missing : ℤ) (r : Reader) (target : Bytes) :
    (pagesWanted blockNos k i * databasePageSize ≤ r.data.length ∧
      ∃ r', (createPages blockNos k i missing r target).2 = .ok (missing - pagesWanted blockNos k i, r')) ∨
    (r.data.length < pagesWanted blockNos k i * databasePageSize ∧
      ∃ e, (createPages blockNos k i missing r target).2 = .error (.read e)) := by
  induction k generalizing i missing r target with
  | zero => exact .inl ⟨by simp [pagesWanted], r, by simp [pagesWanted, createPages]⟩
  | succ k ih =>
    have hsucc : pagesWanted blockNos (k + 1) i = pagesWanted blockNos k (i + 1) + if i ∈ blockNos then 1 else 0 := by
      simp [pagesWanted, range'_succ, countP_cons]
    rw [hsucc, createPages]
    by_cases hmem : i ∈ blockNos
    · rw [if_pos hmem, if_pos hmem, writePage, Nat.add_mul, Nat.one_mul]
      rcases readFull_spec r databasePageSize with ⟨page, r₁, hok, hlength⟩ | ⟨⟨e, he⟩, hlt⟩
      · have hminus : missing - ((pagesWanted blockNos k (i + 1) + 1 : ℕ) : ℤ) =
            missing - 1 - (pagesWanted blockNos k (i + 1) : ℕ) := by
          push_cast
          ring
        rw [hok, hminus]
        rcases ih (i + 1) (missing - 1) r₁ (writeAt target (i * databasePageSize) page) with ⟨hle, hr'⟩ | ⟨hlt, he⟩
        · exact .inl ⟨by omega, hr'⟩
        · exact .inr ⟨by omega, he⟩
      · rw [he]
        exact .inr ⟨by omega, e, rfl⟩
    · rw [if_neg hmem, if_neg hmem, Nat.add_zero]
      exact ih _ _ _ _

theorem pagesWanted_eq (blockNos : List ℕ) (pageCount : ℕ) :
    pagesWanted blockNos pageCount 0 = (blockNos.dedup.filter (· < pageCount)).length := by
  rw [pagesWanted, countP_eq_length_filter, ← range_eq_range']
  refine Perm.length_eq ((perm_ext_iff_of_nodup (nodup_range.filter _) ((nodup_dedup _).filter _)).mpr fun b => ?_)
  simp only [mem_filter, mem_range, mem_dedup, decide_eq_true_eq]
  exact and_comm

end Loops

end WalG.PageFile
