import WalG.XLog.Layout

/-! # Reading laid out records back from a page

The reader of a page sees the body the writer filled.
-/
namespace WalG.XLog
open Foundation List

section HeaderBytes

theorem readField_of_le {w : ℕ} {data : Bytes} (h : w ≤ data.length) (e : ReadError) :
    readField w ⟨data, e⟩ = .ok (leNat (data.take w), ⟨data.drop w, e⟩) := by
  simp only [readField, Reader.readLE, Reader.readFull, if_pos h]
  rfl

theorem readField_length {w value : ℕ} {r r' : Reader} (h : readField w r = .ok (value, r')) :
    w + r'.data.length = r.data.length := by
  unfold readField Reader.readLE at h
  cases hread : r.readFull w with
  | error e => rw [hread] at h; cases h
  | ok result =>
    obtain ⟨bs, inner⟩ := result
    obtain ⟨hle, -, rfl⟩ := Reader.readFull_ok hread
    rw [hread] at h
    cases h
    rw [length_drop]
    omega

/-- The header that the first bytes of a record encode. -/
def headerOf (data : Bytes) : XLogRecordHeader where
  totalRecordLength := leNat (data.take 4)
  xactID := leNat ((data.drop 4).take 4)
  prevRecordPtr := leNat ((data.drop 8).take 8)
  info := leNat ((data.drop 16).take 1)
  resourceManagerID := leNat ((data.drop 17).take 1)
  crc32Hash := leNat ((data.drop 20).take 4)

theorem headerOf_take {n : ℕ} (hn : xLogRecordHeaderSize ≤ n) (data : Bytes) :
    headerOf (data.take n) = headerOf data := by
  unfold xLogRecordHeaderSize at hn
  simp only [headerOf, drop_take, take_take]
  rw [min_eq_left (by omega), min_eq_left (by omega), min_eq_left (by omega), min_eq_left (by omega),
    min_eq_left (by omega), min_eq_left (by omega)]

theorem readXLogRecordHeader_of_le {data : Bytes} (h : xLogRecordHeaderSize ≤ data.length) :
    readXLogRecordHeader (.ofBytes data) = (do
      (headerOf data).checkConsistency
      .ok (headerOf data, ⟨data.drop xLogRecordHeaderSize, .eof⟩)) := by
  unfold xLogRecordHeaderSize at h
  have hfield : ∀ w n, n + w ≤ 24 → readField w ⟨data.drop n, .eof⟩ =
      .ok (leNat ((data.drop n).take w), ⟨data.drop (n + w), .eof⟩) := by
    intro w n hn
    rw [readField_of_le (by rw [length_drop]; omega), drop_drop]
  have hfirst : readField 4 (.ofBytes data) = .ok (leNat (data.take 4), ⟨data.drop 4, .eof⟩) :=
    hfield 4 0 (by decide)
  simp only [readXLogRecordHeader, ok_bind, hfirst, hfield 4 4 (by decide), hfield 8 8 (by decide),
    hfield 1 16 (by decide),
    hfield 1 17 (by decide), hfield 1 18 (by decide), hfield 1 19 (by decide), hfield 4 20 (by decide)]
  rfl

theorem readXLogRecordHeader_length {data : Bytes} {header : XLogRecordHeader} {r : Reader}
    (h : readXLogRecordHeader (.ofBytes data) = .ok (header, r)) : xLogRecordHeaderSize ≤ data.length := by
  obtain ⟨⟨totalRecordLength, r₁⟩, h₁, h⟩ := bind_ok h
  obtain ⟨⟨xactID, r₂⟩, h₂, h⟩ := bind_ok h
  obtain ⟨⟨prevRecordPtr, r₃⟩, h₃, h⟩ := bind_ok h
  obtain ⟨⟨info, r₄⟩, h₄, h⟩ := bind_ok h
  obtain ⟨⟨resourceManagerID, r₅⟩, h₅, h⟩ := bind_ok h
  obtain ⟨⟨padding₁, r₆⟩, h₆, h⟩ := bind_ok h
  obtain ⟨⟨padding₂, r₇⟩, h₇, h⟩ := bind_ok h
  obtain ⟨⟨crc32Hash, r₈⟩, h₈, -⟩ := bind_ok h
  have := readField_length h₁
  have := readField_length h₂
  have := readField_length h₃
  have := readField_length h₄
  have := readField_length h₅
  have := readField_length h₆
  have := readField_length h₇
  have := readField_length h₈
  simp only [Reader.ofBytes, xLogRecordHeaderSize] at *
  omega

end HeaderBytes

namespace RawRecord

variable (raw : RawRecord)

theorem header_eq : (headerOf raw.data).checkConsistency = .ok () ∧ raw.record.header = headerOf raw.data ∧
    xLogRecordHeaderSize ≤ raw.data.length := by
  obtain ⟨r, hread⟩ := parseXLogRecordFromBytes_header raw.parses
  have hlen := readXLogRecordHeader_length hread
  rw [readXLogRecordHeader_of_le hlen] at hread
  obtain ⟨_, hcheck, hok⟩ := bind_ok hread
  exact ⟨hcheck, (Prod.mk.inj (Except.ok.inj hok)).1.symm, hlen⟩

theorem headerSize_le : xLogRecordHeaderSize ≤ raw.data.length := raw.header_eq.2.2

theorem readXLogRecordHeader_take {n : ℕ} (hn : xLogRecordHeaderSize ≤ n) :
    ∃ r, readXLogRecordHeader (.ofBytes (raw.data.take n)) = .ok (raw.record.header, r) := by
  obtain ⟨hcheck, hheader, hlen⟩ := raw.header_eq
  have hle : xLogRecordHeaderSize ≤ (raw.data.take n).length := by
    rw [length_take]
    exact le_min hn hlen
  refine ⟨⟨(raw.data.take n).drop xLogRecordHeaderSize, .eof⟩, ?_⟩
  rw [readXLogRecordHeader_of_le hle, headerOf_take hn, hcheck, ok_bind, hheader]

theorem length_lt : raw.data.length < 2 ^ 32 := by
  rw [← raw.length_eq, raw.header_eq.2.1]
  have h := leNat_lt (raw.data.take 4)
  have hle : (raw.data.take 4).length ≤ 4 := by simp
  exact h.trans_le (Nat.pow_le_pow_right (by decide) hle)

end RawRecord

theorem leNat_of_allZero {data : Bytes} (h : allZero data) : leNat data = 0 := by
  induction data with
  | nil => rfl
  | cons b data ih =>
    simp only [allZero, all_cons, Bool.and_eq_true, beq_iff_eq] at h
    rw [leNat, ih h.2, h.1]
    rfl

/-- The beginning of a record is never all zero, because the length stands first. -/
theorem RawRecord.allZero_take (raw : RawRecord) {n : ℕ} (hn : 4 ≤ n) : ¬ allZero (raw.data.take n) := by
  intro hzero
  have hlen := raw.headerSize_le
  have hfour : allZero (raw.data.take 4) := by
    have htake : raw.data.take 4 = (raw.data.take n).take 4 := by rw [take_take, min_eq_left hn]
    simp only [allZero, all_eq_true] at hzero ⊢
    intro b hb
    exact hzero b (mem_of_mem_take (htake ▸ hb))
  have htotal := raw.length_eq
  rw [raw.header_eq.2.1] at htotal
  change leNat (raw.data.take 4) = _ at htotal
  rw [leNat_of_allZero hfour] at htotal
  unfold xLogRecordHeaderSize at hlen
  omega

theorem allZero_zeros (n : ℕ) : allZero (zeros n) := by
  simp [allZero, zeros]

section Alignment

theorem AlignedReader.readToAlignment_aligned {data : Bytes} {offset : ℕ} (h : offset % 8 = 0) :
    readToAlignment ⟨data, offset⟩ = .ok ⟨data, offset⟩ := by
  simp [readToAlignment, xLogRecordAlignment, h]

theorem AlignedReader.readToAlignment_append {padding : Bytes} {offset : ℕ} (data : Bytes)
    (h : (offset + padding.length) % 8 = 0) (hlt : padding.length < 8) :
    readToAlignment ⟨padding ++ data, offset⟩ = .ok ⟨data, offset + padding.length⟩ := by
  by_cases hnil : padding = []
  · subst hnil
    exact readToAlignment_aligned h
  · have hpos : 0 < padding.length := length_pos_iff.mpr hnil
    have hpad : 8 - offset % 8 = padding.length := by omega
    have hne : padding ++ data ≠ [] := fun hempty => hnil (append_eq_nil_iff.mp hempty).1
    simp only [readToAlignment, xLogRecordAlignment, hpad]
    rw [if_neg (by omega), if_neg hne]
    simp [read]

theorem AlignedReader.readToAlignment_padding {n offset : ℕ} (data : Bytes) (h : (offset + n) % 8 = 0) (hn : n < 8) :
    readToAlignment ⟨zeros n ++ data, offset⟩ = .ok ⟨data, offset + n⟩ := by
  have hread := @readToAlignment_append (zeros n) offset data
  rw [zeros_length] at hread
  exact hread h hn

theorem tryReadXLogRecordData_padding {n offset : ℕ} (data : Bytes) (h : (offset + n) % 8 = 0) (hn : n < 8) :
    tryReadXLogRecordData ⟨zeros n ++ data, offset⟩ = tryReadXLogRecordData ⟨data, offset + n⟩ := by
  simp only [tryReadXLogRecordData, AlignedReader.readToAlignment_padding data h hn,
    AlignedReader.readToAlignment_aligned h]

theorem readXLogPage_padding {n offset : ℕ} (header : XLogPageHeader) (remainingData : Bytes)
    (records : List XLogRecord) (data : Bytes) (h : (offset + n) % 8 = 0) (hn : n < 8) :
    readXLogPage header remainingData records ⟨zeros n ++ data, offset⟩ =
      readXLogPage header remainingData records ⟨data, offset + n⟩ := by
  rw [readXLogPage, readXLogPage, tryReadXLogRecordData_padding data h hn]

end Alignment

section Scan

/-- The bytes of the unfinished record that stand on the pages so far. -/
def Carry.head : Carry → Bytes
  | .cut s => s.head
  | _ => []

variable {offset : ℕ} (hoffset : offset % 8 = 0)
include hoffset

theorem tryReadXLogRecordData_short {data : Bytes} (h : data.length < xLogRecordHeaderSize) :
    tryReadXLogRecordData ⟨data, offset⟩ =
      if data ≠ [] ∧ allZero data then (.error .zeroRecordHeader, ⟨[], offset + data.length⟩)
      else (.ok (data, false), ⟨[], offset + data.length⟩) := by
  have htake : data.take xLogRecordHeaderSize = data := take_of_length_le h.le
  have hdrop : data.drop xLogRecordHeaderSize = [] := drop_of_length_le h.le
  simp only [tryReadXLogRecordData, AlignedReader.readToAlignment_aligned hoffset, AlignedReader.read, htake, hdrop,
    if_pos h]

theorem tryReadXLogRecordData_badHeader {data : Bytes} {e : ParseError} (h : xLogRecordHeaderSize ≤ data.length)
    (hheader : readXLogRecordHeader (.ofBytes (data.take xLogRecordHeaderSize)) = .error e) :
    tryReadXLogRecordData ⟨data, offset⟩ =
      (.error e, ⟨data.drop xLogRecordHeaderSize, offset + xLogRecordHeaderSize⟩) := by
  have hsize : (data.take xLogRecordHeaderSize).length = xLogRecordHeaderSize := by
    rw [length_take, min_eq_left h]
  simp only [tryReadXLogRecordData, AlignedReader.readToAlignment_aligned hoffset, AlignedReader.read, hsize,
    if_neg (lt_irrefl _), hheader]

theorem tryReadXLogRecordData_header {data content rest : Bytes} {header : XLogRecordHeader} {r : Reader}
    (h : xLogRecordHeaderSize ≤ data.length)
    (hheader : readXLogRecordHeader (.ofBytes (data.take xLogRecordHeaderSize)) = .ok (header, r))
    (hcontent : (data.drop xLogRecordHeaderSize).take
      (min (header.totalRecordLength - xLogRecordHeaderSize) walPageSize) = content)
    (hrest : (data.drop xLogRecordHeaderSize).drop
      (min (header.totalRecordLength - xLogRecordHeaderSize) walPageSize) = rest) :
    tryReadXLogRecordData ⟨data, offset⟩ =
      (.ok (data.take xLogRecordHeaderSize ++ content,
        decide (content.length = header.totalRecordLength - xLogRecordHeaderSize)),
        ⟨rest, offset + xLogRecordHeaderSize + content.length⟩) := by
  have hsize : (data.take xLogRecordHeaderSize).length = xLogRecordHeaderSize := by
    rw [length_take, min_eq_left h]
  simp only [tryReadXLogRecordData, AlignedReader.readToAlignment_aligned hoffset, AlignedReader.read, hsize,
    if_neg (lt_irrefl _), hheader, hcontent, hrest]

theorem tryReadXLogRecordData_nil : tryReadXLogRecordData ⟨[], offset⟩ = (.ok ([], false), ⟨[], offset⟩) := by
  rw [tryReadXLogRecordData_short hoffset (by decide), if_neg fun h => h.1 rfl]
  rfl

theorem tryReadXLogRecordData_zeros {n : ℕ} (hn : n ≠ 0) :
    ∃ r, tryReadXLogRecordData ⟨zeros n, offset⟩ = (.error .zeroRecordHeader, r) ∧ allZero r.data := by
  by_cases hshort : n < xLogRecordHeaderSize
  · have hne : zeros n ≠ [] := by
      rw [← length_pos_iff, zeros_length]
      exact Nat.pos_of_ne_zero hn
    rw [tryReadXLogRecordData_short hoffset (by rwa [zeros_length]), if_pos ⟨hne, allZero_zeros n⟩]
    exact ⟨_, rfl, rfl⟩
  · have htake : (zeros n).take xLogRecordHeaderSize = zeros xLogRecordHeaderSize := by
      rw [zeros, take_replicate, min_eq_left (by omega)]
      rfl
    have hheader : readXLogRecordHeader (.ofBytes (zeros xLogRecordHeaderSize)) = .error .zeroRecordHeader := by
      decide
    rw [tryReadXLogRecordData_badHeader hoffset (by rw [zeros_length]; omega) (htake ▸ hheader)]
    refine ⟨_, rfl, ?_⟩
    simp [zeros, drop_replicate, allZero]

/-- A record cut at the end of the page is the heading data of the next one. -/
theorem tryReadXLogRecordData_cut {raw : RawRecord} {capacity : ℕ} (hlt : capacity < raw.data.length)
    (hpos : 8 ≤ capacity) (hpage : capacity ≤ walPageSize) :
    (tryReadXLogRecordData ⟨raw.data.take capacity, offset⟩).1 = .ok (raw.data.take capacity, false) := by
  have hlen : (raw.data.take capacity).length = capacity := by rw [length_take, min_eq_left hlt.le]
  by_cases hshort : capacity < xLogRecordHeaderSize
  · rw [tryReadXLogRecordData_short hoffset (by omega), if_neg fun h => raw.allZero_take (by omega) h.2]
  · have htake : (raw.data.take capacity).take xLogRecordHeaderSize = raw.data.take xLogRecordHeaderSize := by
      rw [take_take, min_eq_left (by omega)]
    obtain ⟨r, hheader⟩ := raw.readXLogRecordHeader_take le_rfl
    have hcontent : ((raw.data.take capacity).drop xLogRecordHeaderSize).take
        (min (raw.record.header.totalRecordLength - xLogRecordHeaderSize) walPageSize) =
        (raw.data.take capacity).drop xLogRecordHeaderSize := by
      apply take_of_length_le
      rw [length_drop, hlen, raw.length_eq]
      omega
    rw [tryReadXLogRecordData_header hoffset (by omega) (htake ▸ hheader) hcontent rfl, take_append_drop,
      length_drop, hlen, raw.length_eq, decide_eq_false (by omega)]

/-- A record that ends on the page is read whole, and the reader stands behind it. -/
theorem tryReadXLogRecordData_whole (raw : RawRecord) (rest : Bytes) (hpage : raw.data.length ≤ walPageSize) :
    tryReadXLogRecordData ⟨raw.data ++ rest, offset⟩ =
      (.ok (raw.data, true), ⟨rest, offset + raw.data.length⟩) := by
  have hle := raw.headerSize_le
  have htake : (raw.data ++ rest).take xLogRecordHeaderSize = raw.data.take xLogRecordHeaderSize :=
    take_append_of_le_length hle
  have hdrop : (raw.data ++ rest).drop xLogRecordHeaderSize = raw.data.drop xLogRecordHeaderSize ++ rest :=
    drop_append_of_le_length hle
  have hmin : min (raw.record.header.totalRecordLength - xLogRecordHeaderSize) walPageSize =
      (raw.data.drop xLogRecordHeaderSize).length := by
    rw [length_drop, raw.length_eq]
    omega
  obtain ⟨r, hheader⟩ := raw.readXLogRecordHeader_take le_rfl
  rw [tryReadXLogRecordData_header hoffset
    (by rw [length_append]; omega) (htake ▸ hheader) (by rw [hdrop, hmin, take_left])
    (by rw [hdrop, hmin, drop_left]), htake, take_append_drop, length_drop, raw.length_eq,
    decide_eq_true rfl, Nat.add_assoc, Nat.add_sub_cancel' hle]

end Scan

section PageRound

variable {header : XLogPageHeader} {remainingData : Bytes} {records : List XLogRecord} {r r' : AlignedReader}

theorem readXLogPage_of_error {e : ParseError} (h : tryReadXLogRecordData r = (.error e, r')) :
    readXLogPage header remainingData records r = checkPartialPage r' ⟨header, remainingData, records, []⟩ e := by
  rw [readXLogPage]
  split <;> rename_i heq <;> rw [h] at heq <;> cases heq
  rfl

theorem readXLogPage_of_cut {data : Bytes} (h : (tryReadXLogRecordData r).1 = .ok (data, false)) :
    readXLogPage header remainingData records r = .ok (⟨header, remainingData, records, data⟩, false) := by
  rw [readXLogPage]
  split <;> rename_i heq <;> rw [heq] at h <;> cases h
  rfl

theorem readXLogPage_of_whole {data : Bytes} {record : XLogRecord}
    (h : tryReadXLogRecordData r = (.ok (data, true), r')) (hparse : parseXLogRecordFromBytes data = .ok record) :
    readXLogPage header remainingData records r =
      if record.isWALSwitch then .ok (⟨header, remainingData, records ++ [record], []⟩, false)
      else readXLogPage header remainingData (records ++ [record]) r' := by
  rw [readXLogPage]
  split <;> rename_i heq <;> rw [h] at heq <;> cases heq
  rw [hparse]

end PageRound

/-- An empty rest of the page gives nothing, at whatever offset the reader stands. -/
theorem readXLogPage_zeros (header : XLogPageHeader) (remainingData : Bytes) (records : List XLogRecord)
    {n offset : ℕ} (h : (offset + n) % 8 = 0) :
    ∃ isPartial, readXLogPage header remainingData records ⟨zeros n, offset⟩ =
      .ok (⟨header, remainingData, records, []⟩, isPartial) := by
  have hsplit : zeros n = zeros (n % 8) ++ zeros (n - n % 8) := by
    rw [zeros, zeros, zeros, replicate_append_replicate, Nat.add_sub_cancel' (Nat.mod_le n 8)]
  have haligned : (offset + n % 8) % 8 = 0 := by omega
  rw [hsplit, readXLogPage_padding _ _ _ _ haligned (Nat.mod_lt _ (by decide))]
  by_cases hzero : n - n % 8 = 0
  · rw [hzero]
    exact ⟨false, readXLogPage_of_cut (congrArg Prod.fst (tryReadXLogRecordData_nil haligned))⟩
  · obtain ⟨r, hread, hall⟩ := tryReadXLogRecordData_zeros haligned hzero
    exact ⟨true, by rw [readXLogPage_of_error hread, checkPartialPage, if_pos ⟨rfl, hall⟩]⟩

/-- From a record boundary on, the reader returns the records that end on the page and
keeps the beginning of the one that is cut off. -/
theorem readXLogPage_fillRecords (header : XLogPageHeader) (remainingData : Bytes) (records : List XLogRecord)
    (queue : List RawRecord) (capacity offset : ℕ) (hc : capacity % 8 = 0) (hpage : capacity ≤ walPageSize)
    (hoffset : offset % 8 = 0) :
    ∃ isPartial, readXLogPage header remainingData records ⟨(fillRecords queue capacity).body, offset⟩ =
      .ok (⟨header, remainingData, records ++ (fillRecords queue capacity).completed.map RawRecord.record,
        (fillRecords queue capacity).carry.head⟩, isPartial) := by
  induction queue generalizing capacity offset records with
  | nil =>
    simp only [fillRecords, map_nil, append_nil, Carry.head]
    exact readXLogPage_zeros header remainingData records (by omega)
  | cons raw queue ih =>
    rw [fillRecords]
    by_cases hzero : capacity = 0
    · rw [dif_pos hzero]
      refine ⟨false, ?_⟩
      rw [readXLogPage_of_cut (congrArg Prod.fst (tryReadXLogRecordData_nil hoffset))]
      simp [Carry.head]
    rw [dif_neg hzero]
    by_cases hlt : capacity < raw.data.length
    · rw [dif_pos hlt]
      refine ⟨false, ?_⟩
      rw [readXLogPage_of_cut (tryReadXLogRecordData_cut hoffset hlt (by omega) hpage)]
      simp [Carry.head, Cut.head]
    rw [dif_neg hlt, Filled.finish]
    have hle : raw.data.length ≤ walPageSize := by omega
    by_cases hswitch : raw.record.isWALSwitch
    · rw [if_pos hswitch]
      refine ⟨false, ?_⟩
      rw [readXLogPage_of_whole (tryReadXLogRecordData_whole hoffset raw _ hle) raw.parses, if_pos hswitch]
      rfl
    · rw [if_neg hswitch]
      have h₁ := le_alignUp raw.data.length
      have h₂ := alignUp_mod raw.data.length
      have h₃ : alignUp raw.data.length < raw.data.length + 8 := by unfold alignUp; omega
      obtain ⟨isPartial, hrest⟩ := ih (records ++ [raw.record]) (capacity - alignUp raw.data.length)
        (offset + alignUp raw.data.length) (by omega) (by omega) (by omega)
      refine ⟨isPartial, ?_⟩
      dsimp only
      rw [append_assoc, readXLogPage_of_whole (tryReadXLogRecordData_whole hoffset raw _ hle) raw.parses,
        if_neg hswitch, readXLogPage_padding _ _ _ _ (by omega) (by omega), Nat.add_assoc,
        Nat.add_sub_cancel' h₁, hrest]
      simp

end WalG.XLog
