import WalG.Delta.RecordingReader

/-! # What the caller of the recording reader sees

The reader hands on the whole pages of the file whatever becomes of the recording.
-/
namespace WalG.Delta
open Foundation PageFile Backup XLog Wal List

section Pages

variable {pageSize : ℕ} {r : PieceReader}

theorem readPageData_of_nil (hpos : 0 < pageSize) (h : r.content = []) :
    ∃ r', readPageData pageSize r = (zeros pageSize, some .eof, r') ∧ r'.content = [] := by
  obtain ⟨r', hread, hrest⟩ := PieceReader.readFull_of_lt (show r.content.length < pageSize by rw [h]; exact hpos)
  rw [if_pos h] at hread
  exact ⟨r', by rw [readPageData, hread], hrest⟩

theorem readPageData_of_partial (h : r.content ≠ []) (hlt : r.content.length < pageSize) :
    ∃ r', readPageData pageSize r = ([], some .unexpectedEOF, r') ∧ r'.content = [] := by
  obtain ⟨r', hread, hrest⟩ := PieceReader.readFull_of_lt hlt
  rw [if_neg h] at hread
  exact ⟨r', by rw [readPageData, hread], hrest⟩

end Pages

/-- The answers of a reader of which `rest` is still to come: the bytes come in their order, no error but the end of
the file is reported, it is reported with the last bytes, and nothing comes after it. -/
def Transparent : Bytes → List (Bytes × Option ReadError) → Prop
  | _, [] => True
  | rest, (bytes, none) :: answers => bytes <+: rest ∧ Transparent (rest.drop bytes.length) answers
  | rest, (bytes, some .eof) :: answers => bytes = rest ∧ ∀ answer ∈ answers, answer.1 = []
  | _, (_, some _) :: _ => False

/-- Once a call asked for more than the `length` bytes, only empty buffers follow. -/
def QuietAfterEnd : ℕ → List ℕ → Prop
  | _, [] => True
  | length, k :: sizes => if k ≤ length then QuietAfterEnd (length - k) sizes else ∀ size ∈ sizes, size = 0

/-- The calls stay within the whole pages, or there are only whole pages and the calls end with the file. -/
def StaysWithin (length : ℕ) (sizes : List ℕ) : Prop :=
  sizes.sum + length % walPageSize ≤ length ∨ length % walPageSize = 0 ∧ QuietAfterEnd length sizes

namespace WalDeltaRecordingReader

variable (w : WalSize) (reader : WalDeltaRecordingReader) (m : DeltaFileManager)

/-- The answers to calls with buffers of the given sizes. -/
def reads (reader : WalDeltaRecordingReader) (m : DeltaFileManager) : List ℕ → List (Bytes × Option ReadError)
  | [] => []
  | k :: sizes =>
    let answer := reader.read w m k
    (answer.1, answer.2.1) :: reads answer.2.2.1 answer.2.2.2 sizes

/-- What the caller has not been given yet. -/
def pending : Bytes := reader.pageDataLeftover ++ reader.walFileReader.content

/-- The length of the last page where it is not a whole one. -/
def partialPage : ℕ := reader.walFileReader.content.length % walPageSize

variable {w reader m}

theorem readLoop_next {k : ℕ} (hle : ¬ k ≤ reader.pageDataLeftover.length)
    (hfull : walPageSize ≤ reader.walFileReader.content.length) : ∃ next m₁,
    reader.readLoop w walPageSize_pos m k = (reader.pageDataLeftover ++
        (readLoop w walPageSize_pos next m₁ (k - reader.pageDataLeftover.length)).1,
      (readLoop w walPageSize_pos next m₁ (k - reader.pageDataLeftover.length)).2) ∧
    next.pending = reader.walFileReader.content ∧ next.partialPage = reader.partialPage ∧
    next.walFileReader.content.length < reader.walFileReader.content.length := by
  obtain ⟨r', hread, hrest⟩ := readPageData_of_le hfull
  refine ⟨_, _, readLoop_of_page hle hread, ?_, ?_, ?_⟩
  · rw [pending, hrest, take_append_drop]
  · rw [partialPage, hrest, length_drop, partialPage, ← Nat.mod_eq_sub_mod hfull]
  · rw [hrest, length_drop]
    have := walPageSize_pos
    omega

theorem readLoop_of_available {k : ℕ} (h : k + reader.partialPage ≤ reader.pending.length) :
    ∃ reader' m', reader.readLoop w walPageSize_pos m k = (reader.pending.take k, none, reader', m') ∧
      reader'.pending = reader.pending.drop k ∧ reader'.partialPage = reader.partialPage := by
  induction hlen : reader.walFileReader.content.length using Nat.strong_induction_on generalizing reader m k with
  | _ length ih =>
    by_cases hle : k ≤ reader.pageDataLeftover.length
    · rw [readLoop_of_le hle, pending, take_append_of_le_length hle, drop_append_of_le_length hle]
      exact ⟨_, _, rfl, rfl, rfl⟩
    · rw [pending, length_append] at h
      have hfull : walPageSize ≤ reader.walFileReader.content.length := by
        by_contra hlt
        rw [partialPage, Nat.mod_eq_of_lt (not_le.mp hlt)] at h
        omega
      obtain ⟨next, m₁, hloop, hpending, hcut, hless⟩ := readLoop_next (w := w) (m := m) hle hfull
      have hk : k - reader.pageDataLeftover.length + next.partialPage ≤ next.pending.length := by
        rw [hcut, hpending]
        omega
      obtain ⟨reader', m', hnext, hdrop, hsame⟩ := ih _ (hlen ▸ hless) hk rfl
      refine ⟨reader', m', ?_, ?_, hsame.trans hcut⟩
      · rw [hloop, hnext, hpending, pending, take_append, take_of_length_le (not_le.mp hle).le]
      · rw [hdrop, hpending, pending, drop_append, drop_of_length_le (not_le.mp hle).le, nil_append]

/-- A call that needs more than the whole pages gets what is left of them and an error; at the end of the file the
page that was allocated becomes the leftover. -/
theorem readLoop_of_exhausted {k : ℕ} (h : reader.pending.length < k + reader.partialPage) :
    ∃ reader' m', reader.readLoop w walPageSize_pos m k =
      (reader.pending.take (reader.pending.length - reader.partialPage),
        some (if reader.partialPage = 0 then .eof else .unexpectedEOF), reader', m') ∧
      (reader.partialPage = 0 → reader'.pageDataLeftover = zeros walPageSize) := by
  induction hlen : reader.walFileReader.content.length using Nat.strong_induction_on generalizing reader m k with
  | _ length ih =>
    have hpage := Nat.mod_le reader.walFileReader.content.length walPageSize
    have hsum := h
    rw [pending, length_append, partialPage] at hsum
    have hle : ¬ k ≤ reader.pageDataLeftover.length := by omega
    by_cases hfull : walPageSize ≤ reader.walFileReader.content.length
    · obtain ⟨next, m₁, hloop, hpending, hcut, hless⟩ := readLoop_next (w := w) (m := m) hle hfull
      have hk : next.pending.length < k - reader.pageDataLeftover.length + next.partialPage := by
        rw [hcut, hpending, partialPage]
        omega
      obtain ⟨reader', m', hnext, hzero⟩ := ih _ (hlen ▸ hless) hk rfl
      rw [hcut, hpending] at hnext
      rw [hcut] at hzero
      refine ⟨reader', m', ?_, hzero⟩
      rw [hloop, hnext, pending, length_append, partialPage, Nat.add_sub_assoc hpage, take_length_add_append]
    · have hmod : reader.partialPage = reader.walFileReader.content.length := Nat.mod_eq_of_lt (not_le.mp hfull)
      have htake : reader.pending.take (reader.pending.length - reader.partialPage) = reader.pageDataLeftover := by
        rw [hmod, pending, length_append, Nat.add_sub_cancel, take_left]
      rw [htake, hmod]
      by_cases hnil : reader.walFileReader.content = []
      · obtain ⟨r', hread, -⟩ := readPageData_of_nil walPageSize_pos hnil
        have hzero : reader.walFileReader.content.length = 0 := length_eq_zero_iff.mpr hnil
        rw [readLoop_of_error hle hread, if_pos hzero]
        exact ⟨_, _, rfl, fun _ => rfl⟩
      · obtain ⟨r', hread, -⟩ := readPageData_of_partial hnil (not_le.mp hfull)
        rw [readLoop_of_error hle hread, if_neg (fun hzero => hnil (length_eq_zero_iff.mp hzero))]
        exact ⟨_, _, rfl, fun hzero => absurd (length_eq_zero_iff.mp hzero) hnil⟩

theorem readLoop_ne_nil {k : ℕ} (hk : k ≠ 0) (hleft : reader.pageDataLeftover ≠ []) :
    (reader.readLoop w walPageSize_pos m k).1 ≠ [] := by
  rw [readLoop]
  split
  · rw [ne_eq, take_eq_nil_iff]
    exact not_or.mpr ⟨hk, hleft⟩
  · split
    · exact hleft
    · exact append_ne_nil_of_left_ne_nil hleft _

theorem reads_quiet_iff (hleft : reader.pageDataLeftover ≠ []) (sizes : List ℕ) :
    (∀ answer ∈ reader.reads w m sizes, answer.1 = []) ↔ ∀ size ∈ sizes, size = 0 := by
  induction sizes with
  | nil => simp [reads]
  | cons k sizes ih =>
    rw [reads, forall_mem_cons, forall_mem_cons]
    by_cases hk : k = 0
    · subst hk
      rw [read, readLoop_of_le (Nat.zero_le _)]
      exact and_congr (by simp) ih
    · exact iff_of_false (fun h => readLoop_ne_nil hk hleft h.1) (fun h => hk h.1)

/-- The answers show the rest of the file exactly when the calls stay within it. -/
theorem reads_transparent (reader : WalDeltaRecordingReader) (m : DeltaFileManager) (sizes : List ℕ) :
    Transparent reader.pending (reader.reads w m sizes) ↔ sizes.sum + reader.partialPage ≤ reader.pending.length ∨
      reader.partialPage = 0 ∧ QuietAfterEnd reader.pending.length sizes := by
  have hpage : reader.partialPage ≤ reader.pending.length := by
    rw [pending, length_append]
    exact (Nat.mod_le _ _).trans (Nat.le_add_left _ _)
  induction sizes generalizing reader m with
  | nil => simpa [reads, Transparent] using Or.inl hpage
  | cons k sizes ih =>
    rw [reads, sum_cons, QuietAfterEnd, read]
    rcases le_or_gt (k + reader.partialPage) reader.pending.length with hk | hk
    · obtain ⟨reader', m', hread, hpending, hcut⟩ := readLoop_of_available (w := w) (m := m) hk
      have hlen : (reader.pending.take k).length = k := by
        rw [length_take]
        omega
      have hpage' : reader'.partialPage ≤ reader'.pending.length := by
        rw [hcut, hpending, length_drop]
        omega
      have hrest := ih reader' m' hpage'
      rw [hpending, hcut, length_drop] at hrest
      rw [hread, Transparent, hlen, if_pos (by omega : k ≤ reader.pending.length)]
      refine (and_iff_right (List.take_prefix _ _)).trans (hrest.trans (or_congr ?_ Iff.rfl))
      omega
    · obtain ⟨reader', m', hread, hzero⟩ := readLoop_of_exhausted (w := w) (m := m) hk
      rw [hread]
      by_cases hwhole : reader.partialPage = 0
      · have hleft : reader'.pageDataLeftover ≠ [] := by
          rw [hzero hwhole]
          exact ne_nil_of_length_pos (by rw [zeros_length]; exact walPageSize_pos)
        rw [if_pos hwhole, Transparent, hwhole, Nat.sub_zero, take_length, reads_quiet_iff hleft,
          if_neg (by omega : ¬ k ≤ reader.pending.length)]
        constructor
        · exact fun h => Or.inr ⟨rfl, h.2⟩
        · rintro (h | h)
          · omega
          · exact ⟨rfl, h.2⟩
      · rw [if_neg hwhole]
        exact iff_of_false (fun h => h) (fun h => h.elim (by omega) (fun h => hwhole h.1))

end WalDeltaRecordingReader

section Opened

open WalDeltaRecordingReader

variable {w : WalSize} {walFileReader : PieceReader} {walFilename : Text} {m m' : DeltaFileManager}
  {reader : WalDeltaRecordingReader}

theorem newWalDeltaRecordingReader_fresh
    (hopen : newWalDeltaRecordingReader w walFileReader walFilename m = .ok (reader, m')) :
    reader.pageDataLeftover = [] ∧ reader.walFileReader = walFileReader := by
  simp only [newWalDeltaRecordingReader] at hopen
  split at hopen
  · cases hopen
  · split at hopen
    · cases hopen
    · cases hopen
      exact ⟨rfl, rfl⟩

theorem transparent_of_fresh (reader : WalDeltaRecordingReader) (hleft : reader.pageDataLeftover = [])
    (sizes : List ℕ) :
    Transparent reader.walFileReader.content (reader.reads w m sizes) ↔
      StaysWithin reader.walFileReader.content.length sizes := by
  have h := reader.reads_transparent (w := w) m sizes
  rw [pending, hleft, nil_append] at h
  exact h

/-- Whatever the file holds, however it is delivered and whatever happens to the recording, the caller sees the file
exactly when its calls stay within the whole pages, or the file consists of whole pages and no call with a buffer
follows the one that reaches the end. -/
theorem recording_transparent_iff
    (hopen : newWalDeltaRecordingReader w walFileReader walFilename m = .ok (reader, m')) (sizes : List ℕ) :
    Transparent walFileReader.content (reader.reads w m' sizes) ↔ StaysWithin walFileReader.content.length sizes := by
  obtain ⟨hleft, hreader⟩ := newWalDeltaRecordingReader_fresh hopen
  rw [← hreader]
  exact transparent_of_fresh reader hleft sizes

/-- The name of the first segment of the first timeline. -/
def firstSegmentName : Text := "000000010000000000000001".toList

/-- A reader opened on a file over an empty data folder. -/
def openedReader (walFileReader : PieceReader) : WalDeltaRecordingReader :=
  ⟨⟨newWalParser, firstSegmentName, true⟩, walFileReader, []⟩

def openedManager : DeltaFileManager :=
  ⟨.empty, .empty, Table.set .empty "000000010000000000000000_delta".toList (newDeltaFile newWalParser), []⟩

theorem newWalDeltaRecordingReader_first (walFileReader : PieceReader) :
    newWalDeltaRecordingReader .default walFileReader firstSegmentName (newDeltaFileManager .empty) =
      .ok (openedReader walFileReader, openedManager) := by
  have hname : getDeltaFilenameFor .default firstSegmentName = some "000000010000000000000000_delta".toList := by
    decide +kernel
  rw [newWalDeltaRecordingReader, hname]
  rfl

theorem openedReader_transparent (walFileReader : PieceReader) (sizes : List ℕ) :
    Transparent walFileReader.content ((openedReader walFileReader).reads .default openedManager sizes) ↔
      StaysWithin walFileReader.content.length sizes :=
  transparent_of_fresh (openedReader walFileReader) rfl sizes

/-- A page that comes in two pieces is passed on by reads that cross them, and a last one finds the end. -/
theorem recording_transparent_page : Transparent (replicate 5000 1 ++ replicate 3192 2)
      ((openedReader ⟨[replicate 5000 1, replicate 3192 2], false⟩).reads .default openedManager [3000, 4000, 1192, 1]) := by
  have hcontent : PieceReader.content ⟨[replicate 5000 1, replicate 3192 2], false⟩ =
      replicate 5000 1 ++ replicate 3192 2 := by
    rw [PieceReader.content, flatten_cons, flatten_cons, flatten_nil, append_nil]
  have hlen : (PieceReader.content ⟨[replicate 5000 1, replicate 3192 2], false⟩).length = 8192 := by
    rw [hcontent, length_append, length_replicate, length_replicate]
  have hquiet : QuietAfterEnd 8192 [3000, 4000, 1192, 1] := by simp [QuietAfterEnd]
  have hwithin : StaysWithin 8192 [3000, 4000, 1192, 1] := .inr ⟨rfl, hquiet⟩
  rw [← hlen] at hwithin
  rw [← hcontent]
  exact (recording_transparent_iff (newWalDeltaRecordingReader_first _) _).mpr hwithin

/-- A call after the end of an empty file gets a byte, and the only byte of a file of one byte is lost. -/
theorem recording_adds_and_loses_bytes :
    ¬ Transparent [] ((openedReader ⟨[], false⟩).reads .default openedManager [1, 1]) ∧
      ¬ Transparent [7] ((openedReader ⟨[[7]], false⟩).reads .default openedManager [1]) := by
  constructor
  · intro h
    have hwithin : StaysWithin 0 [1, 1] := (openedReader_transparent ⟨[], false⟩ [1, 1]).mp h
    rcases hwithin with hsum | ⟨-, hquiet⟩
    · exact absurd hsum (by decide)
    · rw [QuietAfterEnd, if_neg (by decide)] at hquiet
      exact absurd (hquiet 1 (by simp)) (by decide)
  · intro h
    have hwithin : StaysWithin 1 [1] := (openedReader_transparent ⟨[[7]], false⟩ [1]).mp h
    rcases hwithin with hsum | ⟨hwhole, -⟩
    · exact absurd hsum (by decide)
    · exact absurd hwhole (by decide)

end Opened

end WalG.Delta
