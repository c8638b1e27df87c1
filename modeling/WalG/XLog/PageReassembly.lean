import WalG.XLog.RecordScan

/-! # Records are reassembled from the pages

The parser goes in step with the writer: at every page border it holds the bytes of the unfinished
record, from the place on at which it joined.
-/
namespace WalG.XLog
open Foundation List

section Header

theorem AlignedReader.readField_append (w n offset : ℕ) (data : Bytes) :
    readField w ⟨leBytes w n ++ data, offset⟩ = .ok (n % 256 ^ w, ⟨data, offset + w⟩) := by
  simp only [readField, Reader.ofBytes, Reader.readLE_append]

theorem AlignedReader.readField_of_le {w offset : ℕ} {data : Bytes} (h : w ≤ data.length) :
    readField w ⟨data, offset⟩ = .ok (leNat (data.take w), ⟨data.drop w, offset + w⟩) := by
  simp only [readField, Reader.ofBytes, Reader.readLE, Reader.readFull, if_pos h]

variable (frame : PageFrame)

/-- The header a page is parsed with. -/
def PageFrame.parsed (remainingDataLen : ℕ) : XLogPageHeader :=
  ⟨frame.magic, frame.info remainingDataLen, frame.timeLineID % 256 ^ 4, frame.pageAddress % 256 ^ 8, remainingDataLen⟩

theorem PageFrame.info_lt (remainingDataLen : ℕ) : frame.info remainingDataLen < 8 := by
  unfold info
  split_ifs <;> decide

theorem PageFrame.parsed_isZero (remainingDataLen : ℕ) : (frame.parsed remainingDataLen).isZero = false := by
  have h := frame.magic_pos
  rw [XLogPageHeader.isZero, parsed, decide_eq_false]
  intro heq
  have hmagic := congrArg XLogPageHeader.magic heq
  dsimp only at hmagic
  omega

theorem PageFrame.parsed_isLong (remainingDataLen : ℕ) :
    (frame.parsed remainingDataLen).isLong = frame.long.isSome := by
  unfold XLogPageHeader.isLong parsed info
  split_ifs with h₁ h₂ h₃ h₃ h₂ h₃ h₃ <;> simp_all [hasFlag]

theorem PageFrame.parsed_isValid (remainingDataLen : ℕ) : (frame.parsed remainingDataLen).isValid = true := by
  unfold XLogPageHeader.isValid XLogPageHeader.hasValidFlags XLogPageHeader.hasConsistentRemainingDataLen
    XLogPageHeader.hasContinuationRecord parsed info
  split_ifs <;> simp_all [hasFlag]

theorem readXLogPageHeaderFields_header {remainingDataLen : ℕ} (hlt : remainingDataLen < 2 ^ 32) (data : Bytes) :
    readXLogPageHeaderFields ⟨frame.header remainingDataLen ++ data, 0⟩ =
      .ok (frame.parsed remainingDataLen, ⟨zeros 4 ++ frame.longData ++ data, 20⟩) := by
  have hmagic : frame.magic % 256 ^ 2 = frame.magic := Nat.mod_eq_of_lt frame.magic_lt
  have hinfo : frame.info remainingDataLen % 256 ^ 2 = frame.info remainingDataLen :=
    Nat.mod_eq_of_lt ((frame.info_lt remainingDataLen).trans (by decide))
  have hlen : remainingDataLen % 256 ^ 4 = remainingDataLen := Nat.mod_eq_of_lt hlt
  simp only [readXLogPageHeaderFields, PageFrame.header, append_assoc, AlignedReader.readField_append, ok_bind,
    hmagic, hinfo, hlen]
  rfl

theorem readXLogLongPageHeaderData_of_le {data : Bytes} {offset : ℕ} (h : 16 ≤ data.length) :
    readXLogLongPageHeaderData ⟨data, offset⟩ = .ok ⟨data.drop 16, offset + 16⟩ := by
  simp only [readXLogLongPageHeaderData, AlignedReader.readField_of_le (show 8 ≤ data.length by omega), ok_bind,
    AlignedReader.readField_of_le (show 4 ≤ (data.drop 8).length by rw [length_drop]; omega), drop_drop,
    AlignedReader.readField_of_le (show 4 ≤ (data.drop (8 + 4)).length by rw [length_drop]; omega)]

/-- The header of a written page is accepted, and the reader stands at the body behind it. -/
theorem readXLogPageHeader_header {remainingDataLen : ℕ} (hlt : remainingDataLen < 2 ^ 32) (data : Bytes) :
    ∃ r, readXLogPageHeader ⟨frame.header remainingDataLen ++ data, 0⟩ = (.ok (frame.parsed remainingDataLen), r) ∧
      r.readToAlignment = .ok ⟨data, frame.headerSize⟩ := by
  simp only [readXLogPageHeader, readXLogPageHeaderFields_header frame hlt, frame.parsed_isZero,
    frame.parsed_isValid, frame.parsed_isLong]
  cases hlong : frame.long with
  | none =>
    have hdata : frame.longData = [] := by simp only [PageFrame.longData, hlong]
    have hsize : frame.headerSize = 24 := by simp [PageFrame.headerSize, hlong]
    refine ⟨_, rfl, ?_⟩
    rw [hdata, hsize, append_nil]
    exact AlignedReader.readToAlignment_padding data (by decide) (by decide)
  | some fields =>
    have hlength : frame.longData.length = 16 := by simp [PageFrame.longData, hlong]
    have hsize : frame.headerSize = 40 := by simp [PageFrame.headerSize, hlong]
    have hdrop : (zeros 4 ++ frame.longData ++ data).drop 16 = frame.longData.drop 12 ++ data := by
      rw [drop_append_of_le_length (by simp [hlength]), drop_append]
      simp [zeros]
    have hread := @readXLogLongPageHeaderData_of_le (zeros 4 ++ frame.longData ++ data) 20 (by simp [hlength]; omega)
    simp only [Option.isSome_some, Bool.not_true, hread, hdrop]
    refine ⟨_, rfl, ?_⟩
    rw [AlignedReader.readToAlignment_append data (by simp [hlength]) (by simp [hlength]), hsize]
    simp [hlength]

end Header

section Parser

/-- The parser that joined the writer when the first `missed` bytes of the unfinished
record were already written. -/
def Carry.parser (missed : ℕ) : Carry → WalParser
  | .cut s => ⟨s.head.drop missed, decide (missed = 0)⟩
  | _ => newWalParser

theorem Cut.head_append_rest (s : Cut) : s.head ++ s.rest = s.raw.data := take_append_drop _ _

theorem Cut.head_length (s : Cut) : s.head.length = s.written := by
  rw [head, length_take, min_eq_left s.written_lt.le]

theorem Cut.rest_length_lt (s : Cut) : s.rest.length < 2 ^ 32 := by
  rw [rest, length_drop]
  exact (Nat.sub_le _ _).trans_lt s.raw.length_lt

/-- From a page on which the unfinished record ends, the parser goes on in step with the writer. -/
theorem setCurrentRecordData_head (carry : Carry) : WalParser.setCurrentRecordData carry.head = carry.parser 0 := by
  cases carry with
  | boundary => rfl
  | idle => rfl
  | cut s =>
    have hpos : 0 < s.head.length := by
      rw [s.head_length]
      exact s.written_pos
    simp [Carry.head, Carry.parser, WalParser.setCurrentRecordData, hpos]

variable (frame : PageFrame) (parser : WalParser)

theorem parsePage_unfinished {remainingDataLen : ℕ} (hlt : remainingDataLen < 2 ^ 32) {body : Bytes}
    (hbody : body.length < remainingDataLen) (hpage : body.length ≤ walPageSize) :
    parser.parsePage (frame.header remainingDataLen ++ body) =
      .ok (⟨frame.parsed remainingDataLen, body, [], []⟩, false) := by
  obtain ⟨r, hheader, haligned⟩ := readXLogPageHeader_header frame hlt body
  have htake : body.take (min remainingDataLen walPageSize) = body := take_of_length_le (by omega)
  simp only [WalParser.parsePage, hheader, haligned, AlignedReader.read, PageFrame.parsed, htake, if_pos hbody.ne]

/-- A page with all that was left of a record: what follows decides about the rest of the page. -/
theorem parsePage_finished {rest tail : Bytes} {page : XLogPage × Bool} (hlt : rest.length < 2 ^ 32)
    (hpage : rest.length ≤ walPageSize)
    (hscan : readXLogPage (frame.parsed rest.length) rest [] ⟨tail, frame.headerSize + rest.length⟩ = .ok page)
    (hparse : parser.hasCurrentRecordBeginning → ∃ record,
      parseXLogRecordFromBytes (parser.currentRecordData ++ rest) = .ok record ∧
        (record.isWALSwitch → page.1 = ⟨frame.parsed rest.length, rest, [], []⟩)) :
    ∃ isPartial, parser.parsePage (frame.header rest.length ++ (rest ++ tail)) = .ok (page.1, isPartial) := by
  obtain ⟨r, hheader, haligned⟩ := readXLogPageHeader_header frame hlt (rest ++ tail)
  have hmin : min rest.length walPageSize = rest.length := min_eq_left hpage
  simp only [WalParser.parsePage, hheader, haligned, AlignedReader.read, PageFrame.parsed, hmin, take_left, drop_left]
  simp only [PageFrame.parsed] at hscan hparse
  simp only [ne_eq, not_true_eq_false, if_false]
  cases hbeginning : parser.hasCurrentRecordBeginning with
  | false => exact ⟨page.2, hscan⟩
  | true =>
    obtain ⟨record, hrecord, hswitch⟩ := hparse hbeginning
    simp only [hrecord, if_true]
    by_cases hcase : record.isWALSwitch
    · exact ⟨false, by rw [hswitch hcase, if_pos hcase]⟩
    · exact ⟨page.2, by rw [if_neg hcase, hscan]⟩

end Parser

section Step

variable (frame : PageFrame) (queue : List RawRecord)

theorem PageFrame.capacity_le : frame.capacity ≤ walPageSize := Nat.sub_le _ _

/-- Behind the last bytes of a record the reader finds the records that follow. -/
theorem readXLogPage_finish (header : XLogPageHeader) (raw : RawRecord) {rest : Bytes}
    (hle : rest.length ≤ frame.capacity) :
    ∃ tail isPartial, (Filled.finish frame.capacity raw rest queue (fillRecords queue)).body = rest ++ tail ∧
      readXLogPage header rest [] ⟨tail, frame.headerSize + rest.length⟩ =
        .ok (⟨header, rest,
          (Filled.finish frame.capacity raw rest queue (fillRecords queue)).completed.tail.map RawRecord.record,
          (Filled.finish frame.capacity raw rest queue (fillRecords queue)).carry.head⟩, isPartial) := by
  have hc := frame.capacity_mod
  have hsum := frame.capacity_add
  have hmod : walPageSize % 8 = 0 := rfl
  have h₁ := le_alignUp rest.length
  have h₂ := alignUp_mod rest.length
  have h₃ : alignUp rest.length < rest.length + 8 := by unfold alignUp; omega
  rw [Filled.finish]
  split_ifs with hswitch
  · obtain ⟨isPartial, hscan⟩ := @readXLogPage_zeros header rest [] (frame.capacity - rest.length)
      (frame.headerSize + rest.length) (by omega)
    exact ⟨_, isPartial, rfl, hscan⟩
  · obtain ⟨isPartial, hscan⟩ := readXLogPage_fillRecords header rest [] queue
      (frame.capacity - alignUp rest.length) (frame.headerSize + alignUp rest.length) (by omega) (by omega) (by omega)
    refine ⟨_, isPartial, append_assoc _ _ _, ?_⟩
    rw [readXLogPage_padding _ _ _ _ (by omega) (by omega), Nat.add_assoc, Nat.add_sub_cancel' h₁, hscan]
    rfl

/-- A page the record goes on beyond is kept whole. -/
theorem parseRecordsFromPage_unfinished (s : Cut) (parser : WalParser) (hlt : frame.capacity < s.rest.length) :
    parser.parseRecordsFromPage (frame.header s.rest.length ++ s.rest.take frame.capacity) =
      (.ok ⟨[], [], false⟩,
        { parser with currentRecordData := parser.currentRecordData ++ s.rest.take frame.capacity }) := by
  have hlen : (s.rest.take frame.capacity).length = frame.capacity := by rw [length_take, min_eq_left hlt.le]
  have hpage := parsePage_unfinished frame parser s.rest_length_lt
    (show (s.rest.take frame.capacity).length < s.rest.length by omega) (by rw [hlen]; exact frame.capacity_le)
  simp only [WalParser.parseRecordsFromPage, hpage, PageFrame.parsed]
  rw [if_pos (by omega)]

/-- The page a record ends on, for a parser that has the record's beginning. -/
theorem parseRecordsFromPage_finish (s : Cut) (hle : s.rest.length ≤ frame.capacity) :
    ∃ isPartial, WalParser.parseRecordsFromPage ⟨s.head, true⟩ (frame.header s.rest.length ++
        (Filled.finish frame.capacity s.raw s.rest queue (fillRecords queue)).body) =
      (.ok ⟨[], (Filled.finish frame.capacity s.raw s.rest queue (fillRecords queue)).completed.map RawRecord.record,
        isPartial⟩, (Filled.finish frame.capacity s.raw s.rest queue (fillRecords queue)).carry.parser 0) := by
  obtain ⟨tail, flag, hbody, hscan⟩ := readXLogPage_finish frame queue (frame.parsed s.rest.length) s.raw hle
  have hswitch : s.raw.record.isWALSwitch →
      (Filled.finish frame.capacity s.raw s.rest queue (fillRecords queue)).completed.tail = [] ∧
      (Filled.finish frame.capacity s.raw s.rest queue (fillRecords queue)).carry.head = [] := by
    intro h
    rw [Filled.finish, if_pos h]
    exact ⟨rfl, rfl⟩
  obtain ⟨isPartial, hpage⟩ := parsePage_finished frame ⟨s.head, true⟩ s.rest_length_lt
    (hle.trans frame.capacity_le) hscan fun _ => ⟨s.raw.record, by rw [s.head_append_rest]; exact s.raw.parses,
      fun h => by simp [hswitch h]⟩
  have hcompleted := Filled.finish_completed frame.capacity s.raw s.rest queue (fillRecords queue)
  obtain ⟨r, hheader⟩ := parseXLogRecordFromBytes_header s.raw.parses
  refine ⟨isPartial, ?_⟩
  rw [hbody]
  simp only [WalParser.parseRecordsFromPage, hpage, PageFrame.parsed, s.head_append_rest, hheader, s.raw.parses,
    s.raw.length_eq]
  rw [if_neg (lt_irrefl _), if_neg (by decide), if_neg fun h => h rfl, hcompleted, map_cons,
    tail_cons, setCurrentRecordData_head]

/-- The page a record ends on, for a parser that joined inside the record. -/
theorem parseRecordsFromPage_joined (s : Cut) (hle : s.rest.length ≤ frame.capacity) {data : Bytes} :
    ∃ isPartial, WalParser.parseRecordsFromPage ⟨data, false⟩ (frame.header s.rest.length ++
        (Filled.finish frame.capacity s.raw s.rest queue (fillRecords queue)).body) =
      (.ok ⟨data ++ s.rest,
        (Filled.finish frame.capacity s.raw s.rest queue (fillRecords queue)).completed.tail.map RawRecord.record,
        isPartial⟩, (Filled.finish frame.capacity s.raw s.rest queue (fillRecords queue)).carry.parser 0) := by
  obtain ⟨tail, flag, hbody, hscan⟩ := readXLogPage_finish frame queue (frame.parsed s.rest.length) s.raw hle
  obtain ⟨isPartial, hpage⟩ := parsePage_finished frame ⟨data, false⟩ s.rest_length_lt (hle.trans frame.capacity_le)
    hscan nofun
  refine ⟨isPartial, ?_⟩
  rw [hbody]
  simp only [WalParser.parseRecordsFromPage, hpage, PageFrame.parsed]
  rw [if_neg (lt_irrefl _), if_pos (by decide), setCurrentRecordData_head]

theorem parseRecordsFromPage_between {body : Bytes} {records : List XLogRecord} {head : Bytes} {flag : Bool}
    (hscan : readXLogPage (frame.parsed 0) [] [] ⟨body, frame.headerSize⟩ =
      .ok (⟨frame.parsed 0, [], records, head⟩, flag)) :
    ∃ isPartial, newWalParser.parseRecordsFromPage (frame.header 0 ++ body) =
      (.ok ⟨[], records, isPartial⟩, WalParser.setCurrentRecordData head) := by
  obtain ⟨isPartial, hfinished⟩ := @parsePage_finished frame newWalParser [] body _ (by decide) (by decide) hscan
    nofun
  have hpage : newWalParser.parsePage (frame.header 0 ++ body) = .ok (⟨frame.parsed 0, [], records, head⟩, isPartial) :=
    hfinished
  refine ⟨isPartial, ?_⟩
  simp only [WalParser.parseRecordsFromPage, hpage, PageFrame.parsed]
  rfl

theorem parseRecordsFromPage_blank (parser : WalParser) :
    parser.parseRecordsFromPage (zeros walPageSize) = (.error .zeroPage, parser) := by
  have hsplit : zeros walPageSize = zeros 20 ++ zeros (walPageSize - 20) := by
    rw [zeros, zeros, zeros, replicate_append_replicate]
    rfl
  have hzeros : zeros 20 = leBytes 2 0 ++ leBytes 2 0 ++ leBytes 4 0 ++ leBytes 8 0 ++ leBytes 4 0 := by decide
  have hfields : readXLogPageHeaderFields ⟨zeros walPageSize, 0⟩ =
      .ok (⟨0, 0, 0, 0, 0⟩, ⟨zeros (walPageSize - 20), 20⟩) := by
    rw [hsplit, hzeros]
    simp only [readXLogPageHeaderFields, append_assoc, AlignedReader.readField_append, ok_bind]
    rfl
  have hheader : readXLogPageHeader ⟨zeros walPageSize, 0⟩ =
      (.error .zeroPageHeader, ⟨zeros (walPageSize - 20), 20⟩) := by
    simp only [readXLogPageHeader, hfields]
    rfl
  simp only [WalParser.parseRecordsFromPage, WalParser.parsePage, hheader]
  rw [if_pos ⟨trivial, allZero_zeros _⟩]

end Step

section Run

variable (frame : PageFrame) (queue : List RawRecord)

/-- What the parser must have collected when the writer is done with some pages. -/
structure Collected (outputs : List PageRecords) (records : List RawRecord) : Prop where
  tails : ∀ output ∈ outputs, output.prevRecordTail = []
  records_eq : outputs.flatMap PageRecords.records = records.map RawRecord.record

theorem fillPage_isEmpty {capacity : ℕ} {carry : Carry} (h : carry.isEmpty queue) :
    (fillPage capacity carry queue).completed = [] ∧ (fillPage capacity carry queue).carry = carry ∧
      (fillPage capacity carry queue).queue = queue ∧ carry.parser 0 = newWalParser := by
  cases carry with
  | boundary =>
    cases queue with
    | nil => exact ⟨rfl, rfl, rfl, rfl⟩
    | cons raw queue => cases h
  | idle => exact ⟨rfl, rfl, rfl, rfl⟩
  | cut s => cases h

/-- One page, for a parser that is in step with the writer from the beginning of a record on. -/
theorem parseRecordsFromPage_writePage (carry : Carry) (hblank : ¬ (frame.blank && carry.isEmpty queue)) :
    ∃ isPartial, (carry.parser 0).parseRecordsFromPage (writePage frame carry queue) =
      (.ok ⟨[], (fillPage frame.capacity carry queue).completed.map RawRecord.record, isPartial⟩,
        (fillPage frame.capacity carry queue).carry.parser 0) := by
  have hsum := frame.capacity_add
  have hc := frame.capacity_mod
  have hmod : walPageSize % 8 = 0 := rfl
  rw [writePage, if_neg hblank]
  cases carry with
  | boundary =>
    obtain ⟨flag, hscan⟩ := readXLogPage_fillRecords (frame.parsed 0) [] [] queue frame.capacity frame.headerSize hc
      frame.capacity_le (by omega)
    obtain ⟨isPartial, hpage⟩ := parseRecordsFromPage_between frame hscan
    rw [setCurrentRecordData_head] at hpage
    exact ⟨isPartial, hpage⟩
  | idle =>
    obtain ⟨flag, hscan⟩ := @readXLogPage_zeros (frame.parsed 0) [] [] frame.capacity frame.headerSize (by omega)
    exact parseRecordsFromPage_between frame hscan
  | cut s =>
    rw [fillPage]
    by_cases hlt : frame.capacity < s.rest.length
    · rw [dif_pos hlt]
      refine ⟨false, ?_⟩
      have hpage := parseRecordsFromPage_unfinished frame s ⟨s.head, true⟩ hlt
      have hhead : s.head ++ s.rest.take frame.capacity = s.raw.data.take (s.written + frame.capacity) := by
        rw [take_add]
        rfl
      rw [hhead] at hpage
      exact hpage
    · rw [dif_neg hlt]
      exact parseRecordsFromPage_finish frame queue s (by omega)

/-- A parser in step with the writer returns the records that end on the pages, each once and
in order, and is in step again behind them. -/
theorem parsePages_inStep (frames : List PageFrame) (carry : Carry) (queue : List RawRecord) :
    ∃ outputs, (carry.parser 0).parsePages (writePages frames carry queue).pages =
        (.ok outputs, (writePages frames carry queue).carry.parser 0) ∧
      Collected outputs (writePages frames carry queue).completed := by
  induction frames generalizing carry queue with
  | nil => exact ⟨[], rfl, ⟨by simp, rfl⟩⟩
  | cons frame frames ih =>
    obtain ⟨outputs, hrun, hcollected⟩ := ih (fillPage frame.capacity carry queue).carry
      (fillPage frame.capacity carry queue).queue
    simp only [writePages, WalParser.parsePages]
    by_cases hblank : frame.blank && carry.isEmpty queue
    · obtain ⟨hcompleted, hcarry, hqueue, -⟩ := @fillPage_isEmpty queue frame.capacity carry
        (Bool.and_eq_true _ _ ▸ hblank).2
      rw [writePage, if_pos hblank, parseRecordsFromPage_blank, hcompleted, hcarry, hqueue]
      rw [hcarry, hqueue] at hrun hcollected
      exact ⟨outputs, hrun, hcollected⟩
    · obtain ⟨isPartial, hpage⟩ := parseRecordsFromPage_writePage frame queue carry hblank
      rw [hpage]
      simp only [hrun]
      refine ⟨_, rfl, ?_, ?_⟩
      · intro output houtput
        rcases mem_cons.mp houtput with rfl | hmem
        · rfl
        · exact hcollected.tails output hmem
      · rw [flatMap_cons, hcollected.records_eq, map_append]

/-- What a parser has collected that joined inside a record: nothing before the page on which
the record ends, there the rest of the record, and afterwards the records. -/
structure Joined (outputs : List PageRecords) (tail : Bytes) (records : List RawRecord) : Prop where
  split : ∃ before first after, outputs = before ++ first :: after ∧
    (∀ output ∈ before, output.prevRecordTail = [] ∧ output.records = []) ∧
    first.prevRecordTail = tail ∧ Collected after (records.drop first.records.length) ∧
    first.records = (records.take first.records.length).map RawRecord.record

/-- A parser that joins inside a record either never sees its end and keeps the bytes, or returns
the bytes from where it joined once, and then the records. -/
theorem parsePages_joined (frames : List PageFrame) (s : Cut) (queue : List RawRecord) {missed : ℕ}
    (hpos : 0 < missed) (hle : missed ≤ s.written) :
    ∃ outputs, ((Carry.cut s).parser missed).parsePages (writePages frames (.cut s) queue).pages =
        (.ok outputs, (writePages frames (.cut s) queue).carry.parser
          (if (writePages frames (.cut s) queue).completed = [] then missed else 0)) ∧
      (((writePages frames (.cut s) queue).completed = [] ∧
          ∀ output ∈ outputs, output.prevRecordTail = [] ∧ output.records = []) ∨
        ∃ later, (writePages frames (.cut s) queue).completed = s.raw :: later ∧
          Joined outputs (s.raw.data.drop missed) later) := by
  have hflag : decide (missed = 0) = false := decide_eq_false (by omega)
  induction frames generalizing s queue with
  | nil => exact ⟨[], rfl, .inl ⟨rfl, by simp⟩⟩
  | cons frame frames ih =>
    have hblank : ¬ (frame.blank && (Carry.cut s).isEmpty queue) := by simp [Carry.isEmpty]
    have hparser : (Carry.cut s).parser missed = ⟨s.head.drop missed, false⟩ := by rw [Carry.parser, hflag]
    simp only [writePages, WalParser.parsePages, hparser]
    rw [writePage, if_neg hblank]
    by_cases hlt : frame.capacity < s.rest.length
    · -- the record goes on beyond the page
      simp only [fillPage, dif_pos hlt]
      have hwritten : s.written + frame.capacity < s.raw.data.length := by
        rw [Cut.rest, length_drop] at hlt
        omega
      obtain ⟨outputs, hrun, hcases⟩ := ih
        ⟨s.raw, s.written + frame.capacity, Nat.add_pos_left s.written_pos _, hwritten⟩ queue (by dsimp only; omega)
      have hhead : s.head.drop missed ++ s.rest.take frame.capacity =
          (s.raw.data.take (s.written + frame.capacity)).drop missed := by
        rw [take_add, drop_append_of_le_length (by rw [length_take]; have := s.written_lt; omega)]
        rfl
      have hpage := parseRecordsFromPage_unfinished frame s ⟨s.head.drop missed, false⟩ hlt
      rw [Carry.parser, hflag, Cut.head] at hrun
      rw [hhead] at hpage
      simp only [Carry.remainingDataLen, hpage, hrun, nil_append]
      refine ⟨_, rfl, ?_⟩
      rcases hcases with ⟨hnone, hquiet⟩ | ⟨later, hlater, hjoined⟩
      · refine .inl ⟨hnone, fun output houtput => ?_⟩
        rcases mem_cons.mp houtput with rfl | hmem
        · exact ⟨rfl, rfl⟩
        · exact hquiet output hmem
      · obtain ⟨before, first, after, rfl, hbefore, hrest⟩ := hjoined.split
        refine .inr ⟨later, hlater, ⟨⟨⟨[], [], false⟩ :: before, first, after, rfl, fun output houtput => ?_, hrest⟩⟩⟩
        rcases mem_cons.mp houtput with rfl | hmem
        · exact ⟨rfl, rfl⟩
        · exact hbefore output hmem
    · -- the record ends here
      simp only [fillPage, dif_neg hlt]
      obtain ⟨isPartial, hpage⟩ := @parseRecordsFromPage_joined frame queue s (by omega) (s.head.drop missed)
      have hcompleted := Filled.finish_completed frame.capacity s.raw s.rest queue (fillRecords queue)
      generalize Filled.finish frame.capacity s.raw s.rest queue (fillRecords queue) = filled at hpage hcompleted ⊢
      obtain ⟨outputs, hrun, hcollected⟩ := parsePages_inStep frames filled.carry filled.queue
      have htail : s.head.drop missed ++ s.rest = s.raw.data.drop missed := by
        rw [← s.head_append_rest, drop_append_of_le_length (by rw [s.head_length]; exact hle)]
      simp only [Carry.remainingDataLen, hpage, hrun]
      refine ⟨⟨s.head.drop missed ++ s.rest, filled.completed.tail.map RawRecord.record, isPartial⟩ :: outputs, ?_,
        .inr ⟨filled.completed.tail ++ (writePages frames filled.carry filled.queue).completed, ?_,
          ⟨⟨[], _, outputs, rfl, by simp, htail, ?_, ?_⟩⟩⟩⟩
      · rw [hcompleted]
        rfl
      · rw [← cons_append, ← hcompleted]
      · simpa using hcollected
      · simp

/-- The parser reassembles the records. Started at a record boundary it returns every record
that ends on the pages, once and in order; started inside a record it returns the bytes from
there on as the tail of a previous record, once, and then the records. In the end it holds the
bytes of the unfinished record. -/
theorem parsePages_reassembles (frames : List PageFrame) (queue : List RawRecord) :
    (∃ outputs, newWalParser.parsePages (writePages frames .boundary queue).pages =
        (.ok outputs, .setCurrentRecordData (writePages frames .boundary queue).carry.head) ∧
      Collected outputs (writePages frames .boundary queue).completed ∧
      (writePages frames .boundary queue).completed ++ (writePages frames .boundary queue).carry.unfinished ++
        (writePages frames .boundary queue).queue = queue) ∧
    ∀ s : Cut, ∃ outputs parser, newWalParser.parsePages (writePages frames (.cut s) queue).pages =
        (.ok outputs, parser) ∧
      (writePages frames (.cut s) queue).completed ++ (writePages frames (.cut s) queue).carry.unfinished ++
        (writePages frames (.cut s) queue).queue = s.raw :: queue ∧
      (((writePages frames (.cut s) queue).completed = [] ∧
          (∀ output ∈ outputs, output.prevRecordTail = [] ∧ output.records = []) ∧
          parser.currentRecordData = (writePages frames (.cut s) queue).carry.head.drop s.written) ∨
        ∃ later, (writePages frames (.cut s) queue).completed = s.raw :: later ∧ Joined outputs s.rest later ∧
          parser = .setCurrentRecordData (writePages frames (.cut s) queue).carry.head) := by
  constructor
  · obtain ⟨outputs, hrun, hcollected⟩ := parsePages_inStep frames .boundary queue
    refine ⟨outputs, ?_, hcollected, writePages_records frames .boundary queue⟩
    rw [setCurrentRecordData_head]
    exact hrun
  · intro s
    have hnew : newWalParser = (Carry.cut s).parser s.written := by
      have hnil : s.head.drop s.written = [] := drop_of_length_le s.head_length.le
      rw [Carry.parser, hnil, decide_eq_false (Nat.pos_iff_ne_zero.mp s.written_pos)]
      rfl
    obtain ⟨outputs, hrun, hcases⟩ := parsePages_joined frames s queue s.written_pos le_rfl
    refine ⟨outputs, _, hnew ▸ hrun, writePages_records frames (.cut s) queue, ?_⟩
    rcases hcases with ⟨hnone, hquiet⟩ | ⟨later, hlater, hjoined⟩
    · refine .inl ⟨hnone, hquiet, ?_⟩
      rw [if_pos hnone]
      cases (writePages frames (.cut s) queue).carry <;> simp [Carry.parser, Carry.head, newWalParser]
    · refine .inr ⟨later, hlater, hjoined, ?_⟩
      rw [if_neg (by rw [hlater]; exact cons_ne_nil _ _), setCurrentRecordData_head]

end Run

end WalG.XLog
