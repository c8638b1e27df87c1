import WalG.PageFile.Fill

/-! # What an interrupted unpack leaves behind

Both page loops grow or keep the target in whole pages whatever the reader delivers.
-/
namespace WalG.PageFile
open Foundation

variable {target target' : Bytes} {i : ℕ} {r s r' content : Reader}

theorem readFull_of_isPrefix {n : ℕ} {bs : Bytes} (h : r.data <+: s.data) (hr : readFull r n = .ok (bs, r')) :
    ∃ s', readFull s n = .ok (bs, s') ∧ r'.data <+: s'.data := by
  obtain ⟨s', hs, hpre⟩ := Reader.readFull_of_isPrefix h (mapError_ok_iff.mp hr)
  exact ⟨s', mapError_ok_iff.mpr hs, hpre⟩

theorem readField_of_isPrefix {w n : ℕ} (h : r.data <+: s.data) (hr : readField r w = .ok (n, r')) :
    ∃ s', readField s w = .ok (n, s') ∧ r'.data <+: s'.data := by
  obtain ⟨s', hs, hpre⟩ := Reader.readLE_of_isPrefix h (mapError_ok_iff.mp hr)
  exact ⟨s', mapError_ok_iff.mpr hs, hpre⟩

/-- A header decoded from a source that breaks off later is the source's header. -/
theorem getIncrementHeaderFields_of_isPrefix {h : IncrementHeader}
    (hpre : r.data <+: s.data) (hr : getIncrementHeaderFields r = .ok (h, r')) :
    ∃ s', getIncrementHeaderFields s = .ok (h, s') := by
  obtain ⟨r₁, h₁, hr⟩ := bind_ok hr
  obtain ⟨⟨magic, r₀⟩, h₀, h₁⟩ := bind_ok h₁
  obtain ⟨⟨fileSize, r₂⟩, h₂, hr⟩ := bind_ok hr
  obtain ⟨⟨count, r₃⟩, h₃, hr⟩ := bind_ok hr
  obtain ⟨⟨diffMap, r₄⟩, h₄, hr⟩ := bind_ok hr
  simp only at h₁
  split_ifs at h₁ with hsig hver
  cases h₁
  cases hr
  obtain ⟨s₁, hs₁, p₁⟩ := readFull_of_isPrefix hpre h₀
  obtain ⟨s₂, hs₂, p₂⟩ := readField_of_isPrefix p₁ h₂
  obtain ⟨s₃, hs₃, p₃⟩ := readField_of_isPrefix p₂ h₃
  obtain ⟨s₄, hs₄, -⟩ := readFull_of_isPrefix p₃ h₄
  refine ⟨s₄, ?_⟩
  simp only [getIncrementHeaderFields, readIncrementFileHeader, hs₁, bind, Except.bind, if_neg hsig,
    if_neg hver, hs₂, hs₃, hs₄]
  rfl

theorem writePage_overwrite {content' : Reader} {w : Bool} (hlen : target.length = i * databasePageSize)
    (h : writePage target i content true = (target', .ok (w, content'))) :
    target'.length = (i + 1) * databasePageSize := by
  unfold writePage at h
  cases hr : readFull content databasePageSize with
  | error e =>
    rw [hr] at h
    cases h
  | ok p =>
    rw [hr] at h
    cases h
    rw [writeAt_length, hlen, readFull_length hr, Nat.succ_mul]
    exact Nat.max_eq_right (Nat.le_add_right _ _)

theorem writePage_error {ow : Bool} {e : FileError} (h : writePage target i content ow = (target', .error e)) :
    target' = target := by
  unfold writePage at h
  split at h
  · exact (Prod.mk.inj h).1.symm
  · split at h
    · cases h
    · split at h
      · exact (Prod.mk.inj h).1.symm
      · cases h
      · cases h

theorem createPages_length (blockNos : List ℕ) (k i : ℕ) (m : ℤ) (r : Reader) (target : Bytes)
    (hlen : target.length = i * databasePageSize) :
    (∀ target' p, createPages blockNos k i m r target = (target', .ok p) →
        target'.length = (i + k) * databasePageSize) ∧
      ∀ target' e, createPages blockNos k i m r target = (target', .error e) →
        ∃ j < i + k, target'.length = j * databasePageSize := by
  induction k generalizing i m r target with
  | zero =>
    constructor
    · intro target' p h
      cases h
      exact hlen
    · intro target' e h
      cases h
  | succ k ih =>
    unfold createPages
    have hnext : i + 1 + k = i + (k + 1) := by omega
    split_ifs with hi
    · cases hw : writePage target i r true with
      | mk target₁ res =>
        cases res with
        | error e =>
          have hsame := writePage_error hw
          constructor
          · intro target' p h
            cases h
          · intro target' e' h
            cases h
            exact ⟨i, by omega, by rw [hsame, hlen]⟩
        | ok q =>
          have hstep := ih (i + 1) (m - 1) q.2 target₁ (writePage_overwrite hlen hw)
          rw [hnext] at hstep
          exact hstep
    · have hstep := ih (i + 1) m r (writeAt target (i * databasePageSize) emptyPage.toList) (by
        rw [writeAt_length, hlen, emptyPage.toList_length, Nat.succ_mul]
        exact Nat.max_eq_right (Nat.le_add_right _ _))
      rw [hnext] at hstep
      exact hstep

theorem createFileFromIncrement_pages_length (inc : Increment) (r : Reader) (hpre : r.data <+: inc.encode) :
    (∀ file m, createFileFromIncrement r [] = (file, .ok m) → file.length = inc.pageCount * databasePageSize) ∧
      ∀ file e, createFileFromIncrement r [] = (file, .error e) →
        ∃ j, (j = 0 ∨ j < inc.pageCount) ∧ file.length = j * databasePageSize := by
  have hempty : ∀ (file : Bytes) (e e' : FileError),
      (([], .error e) : Bytes × Except FileError ℤ) = (file, .error e') →
        ∃ j, (j = 0 ∨ j < inc.pageCount) ∧ file.length = j * databasePageSize := by
    rintro file e e' ⟨⟩
    exact ⟨0, .inl rfl, rfl⟩
  unfold createFileFromIncrement
  cases hd : getIncrementHeaderFields r with
  | error e => exact ⟨fun file m h => (by cases h), fun file e' h => hempty file e e' h⟩
  | ok p =>
    obtain ⟨hdr, r'⟩ := p
    obtain ⟨s', hs⟩ := getIncrementHeaderFields_of_isPrefix (s := .ofBytes inc.encode) hpre hd
    have hsize : hdr.fileSize / databasePageSize = inc.pageCount := by
      rw [(getIncrementHeaderFields_wrapped inc hs).1]
      exact Nat.mul_div_cancel _ (by decide)
    simp only [hsize]
    cases hn : deltaBlockNumbers hdr.diffMap hdr.diffBlockCount 0 with
    | error e => exact ⟨fun file m h => (by cases h), fun file e' h => hempty file e e' h⟩
    | ok blockNos =>
      have hpages := createPages_length blockNos inc.pageCount 0 inc.pageCount r' [] (by simp)
      rw [Nat.zero_add] at hpages
      dsimp only
      rcases hc : createPages blockNos inc.pageCount 0 inc.pageCount r' [] with ⟨target, e | q⟩
      · constructor
        · rintro file m ⟨⟩
        · rintro file e' ⟨⟩
          obtain ⟨j, hj, hlen⟩ := hpages.2 _ _ hc
          exact ⟨j, .inr hj, hlen⟩
      · constructor
        · rintro file m ⟨⟩
          exact hpages.1 _ _ hc
        · rintro file e' ⟨⟩

theorem writePage_length (content : Reader) (ow : Bool) (hi : (i + 1) * databasePageSize ≤ target.length) :
    (writePage target i content ow).1.length = target.length := by
  have hsame : ∀ page : Bytes, page.length = databasePageSize →
      (writeAt target (i * databasePageSize) page).length = target.length := by
    intro page hpage
    rw [writeAt_length, hpage, ← Nat.succ_mul]
    exact Nat.max_eq_left hi
  unfold writePage
  cases hr : readFull content databasePageSize with
  | error e => rfl
  | ok p =>
    have hw := hsame p.1 (readFull_length hr)
    dsimp only
    split_ifs
    · exact hw
    · split
      · rfl
      · rfl
      · exact hw

theorem writePages_length (diffMap : Bytes) (ow : Bool) {t : ℕ} (k i c : ℕ) (r : Reader)
    (target : Bytes) (ht : t * databasePageSize ≤ target.length) :
    (writePages diffMap t ow k i c r target).1.length = target.length := by
  induction k generalizing i c r target with
  | zero => rfl
  | succ k ih =>
    unfold writePages
    cases hb : diffMapBlock diffMap i with
    | error e => rfl
    | ok blockNo =>
      dsimp only
      split_ifs with hout
      · cases (r.discard databasePageSize).mapError FileError.read with
        | error e => rfl
        | ok r' => exact ih (i + 1) c r' target ht
      · have hlt : (blockNo + 1) * databasePageSize ≤ target.length :=
          le_trans (Nat.mul_le_mul_right _ (Nat.not_le.mp hout)) ht
        have hlen := writePage_length r ow hlt
        rcases hw : writePage target blockNo r ow with ⟨target₁, e | q⟩
        · rw [hw] at hlen
          exact hlen
        · rw [hw] at hlen
          rw [ih (i + 1) _ q.2 target₁ (by rw [hlen]; exact ht), hlen]

theorem writePagesFromIncrement_length (r : Reader) (target : Bytes) (ow : Bool) :
    (writePagesFromIncrement r target ow).1.length = target.length := by
  unfold writePagesFromIncrement
  cases hd : getIncrementHeaderFields r with
  | error e => rfl
  | ok p =>
    have hlen := writePages_length p.1.diffMap ow p.1.diffBlockCount 0 0 p.2 target
      (Nat.div_mul_le_self target.length databasePageSize)
    dsimp only
    split
    · rename_i heq
      rw [heq] at hlen
      exact hlen
    · rename_i heq
      rw [heq] at hlen
      exact hlen

end WalG.PageFile
