import WalG.XLog.PageReassembly

/-! # A stream of records cut into segments

The writer goes on from segment to segment; only a switch of the segment ends with it.
-/
namespace WalG.XLog
open Foundation List

namespace Carry

/-- Where the writer stands when the next segment begins. -/
def nextSegment : Carry → Carry
  | .idle => .boundary
  | carry => carry

/-- The bytes still to be written. -/
def rest : Carry → Bytes
  | .cut s => s.rest
  | _ => []

/-- How many bytes of the unfinished record are written. -/
def written : Carry → ℕ
  | .cut s => s.written
  | _ => 0

variable (carry : Carry)

@[simp] theorem head_nextSegment : carry.nextSegment.head = carry.head := by cases carry <;> rfl

@[simp] theorem parser_nextSegment (missed : ℕ) : carry.nextSegment.parser missed = carry.parser missed := by
  cases carry <;> rfl

theorem nextSegment_ne_idle : carry.nextSegment ≠ .idle := by cases carry <;> exact fun h => Carry.noConfusion h

theorem head_append_rest : carry.head ++ carry.rest = carry.unfinished.flatMap RawRecord.data := by
  cases carry with
  | boundary => rfl
  | idle => rfl
  | cut s => exact s.head_append_rest.trans (append_nil _).symm

theorem head_length_lt : carry.head.length < 2 ^ 32 := by
  cases carry with
  | boundary => decide
  | idle => decide
  | cut s => exact (s.head_length.trans_lt s.written_lt).trans s.raw.length_lt

theorem rest_length_lt : carry.rest.length < 2 ^ 32 := by
  cases carry with
  | boundary => decide
  | idle => decide
  | cut s => exact s.rest_length_lt

end Carry

/-- The pages of each segment, and the writer at the beginning of the first. -/
structure WalStream where
  frames : ℕ → List PageFrame
  carry : Carry
  queue : List RawRecord

namespace WalStream

variable (stream : WalStream)

/-- The writer at the beginning of a segment. -/
def before : ℕ → Carry × List RawRecord
  | 0 => (stream.carry.nextSegment, stream.queue)
  | n + 1 =>
    let written := writePages (stream.frames n) (before n).1 (before n).2
    (written.carry.nextSegment, written.queue)

def segment (n : ℕ) : Written := writePages (stream.frames n) (stream.before n).1 (stream.before n).2

def crossing (n : ℕ) : Carry := (stream.before n).1

/-- What the recorder of a segment stores for the record that crosses into it, if a record ends in the segment. -/
def tail (n : ℕ) : Option Bytes :=
  if (stream.segment n).completed.isEmpty then none else some (stream.crossing n).rest

/-- The records that end in a segment besides the one that crosses into it. -/
def inner (n : ℕ) : List RawRecord :=
  (stream.segment n).completed.drop (stream.crossing n).unfinished.length

/-- What it stores for the record that crosses out of the segment: its bytes in this segment. -/
def head (n : ℕ) : Bytes :=
  (stream.segment n).carry.head.drop (if (stream.segment n).completed.isEmpty then (stream.crossing n).written else 0)

/-- No record covers the whole segment. -/
def Supplies (n : ℕ) : Prop := (stream.crossing n).written = 0 ∨ (stream.segment n).completed ≠ []

theorem page_length (n : ℕ) : ∀ page ∈ (stream.segment n).pages, page.length = walPageSize := by
  have hpages (frames : List PageFrame) (carry : Carry) (queue : List RawRecord) :
      ∀ page ∈ (writePages frames carry queue).pages, page.length = walPageSize := by
    induction frames generalizing carry queue with
    | nil => simp [writePages]
    | cons frame frames ih =>
      exact forall_mem_cons.mpr ⟨writePage_length _ _ _, ih _ _⟩
  exact hpages _ _ _

theorem crossing_succ (n : ℕ) : stream.crossing (n + 1) = (stream.segment n).carry.nextSegment := rfl

theorem crossing_ne_idle (n : ℕ) : stream.crossing n ≠ .idle := by
  cases n with
  | zero => exact Carry.nextSegment_ne_idle _
  | succ n => exact Carry.nextSegment_ne_idle _

theorem crossing_cases (n : ℕ) : stream.crossing n = .boundary ∨ ∃ s, stream.crossing n = .cut s := by
  cases hcrossing : stream.crossing n with
  | boundary => exact .inl rfl
  | cut s => exact .inr ⟨s, rfl⟩
  | idle => exact absurd hcrossing (stream.crossing_ne_idle n)

theorem completed_append (n : ℕ) : (stream.segment n).completed ++ (stream.segment n).carry.unfinished ++
    (stream.segment n).queue = (stream.crossing n).unfinished ++ (stream.before n).2 :=
  writePages_records _ _ _

/-- The record that crosses into a segment is the first to end there. -/
theorem completed_eq {n : ℕ} (h : (stream.segment n).completed ≠ []) :
    (stream.segment n).completed = (stream.crossing n).unfinished ++ stream.inner n := by
  have hrecords := stream.completed_append n
  rw [inner]
  rcases stream.crossing_cases n with hcrossing | ⟨s, hcrossing⟩
  · rw [hcrossing]
    rfl
  · obtain ⟨first, later, hcompleted⟩ := exists_cons_of_ne_nil h
    rw [hcrossing, hcompleted] at hrecords
    obtain ⟨rfl, -⟩ := cons.inj hrecords
    rw [hcrossing, hcompleted]
    rfl

variable {stream} in
theorem Supplies.head_eq {n : ℕ} (h : stream.Supplies n) : stream.head n = (stream.crossing (n + 1)).head := by
  rw [head, crossing_succ, Carry.head_nextSegment]
  rcases h with hwritten | hcompleted
  · rw [hwritten, ite_self]
    rfl
  · rw [if_neg (by simpa using hcompleted)]
    rfl

theorem head_length_lt (n : ℕ) : (stream.head n).length < 2 ^ 32 := by
  rw [head, length_drop]
  exact (Nat.sub_le _ _).trans_lt (Carry.head_length_lt _)

end WalStream

/-- What a recorder makes of the outputs of the pages: the tail of the first page that has a tail or records,
and all records. Behind that page there is no tail any more. -/
inductive Yields : List PageRecords → Option Bytes → List XLogRecord → Prop where
  | nil : Yields [] none []
  | quiet {output : PageRecords} {outputs tail records} (htail : output.prevRecordTail = [])
      (hrecords : output.records = []) (h : Yields outputs tail records) : Yields (output :: outputs) tail records
  | first {output : PageRecords} {outputs} (hoverall : output.prevRecordTail ≠ [] ∨ output.records ≠ [])
      (htails : ∀ later ∈ outputs, later.prevRecordTail = []) :
      Yields (output :: outputs) (some output.prevRecordTail) (output.records ++ outputs.flatMap PageRecords.records)

namespace Yields

theorem append_quiet {before outputs : List PageRecords} {tail : Option Bytes} {records : List XLogRecord}
    (hbefore : ∀ output ∈ before, output.prevRecordTail = [] ∧ output.records = []) (h : Yields outputs tail records) :
    Yields (before ++ outputs) tail records := by
  induction before with
  | nil => exact h
  | cons output before ih =>
    obtain ⟨⟨htail, hrecords⟩, hlater⟩ := forall_mem_cons.mp hbefore
    exact .quiet htail hrecords (ih hlater)

theorem of_tails {outputs : List PageRecords} (h : ∀ output ∈ outputs, output.prevRecordTail = []) :
    Yields outputs (if (outputs.flatMap PageRecords.records).isEmpty then none else some [])
      (outputs.flatMap PageRecords.records) := by
  induction outputs with
  | nil => exact .nil
  | cons output outputs ih =>
    obtain ⟨htail, hlater⟩ := forall_mem_cons.mp h
    rw [flatMap_cons]
    by_cases hrecords : output.records = []
    · rw [hrecords, nil_append]
      exact .quiet htail hrecords (ih hlater)
    · have hfirst := Yields.first (.inr hrecords) hlater
      rw [htail] at hfirst
      rwa [if_neg (by simp [hrecords])]

end Yields

namespace WalStream

variable (stream : WalStream)

/-- What a parser makes of a segment with which it starts. -/
theorem parsePages_segment (n : ℕ) : ∃ outputs parser,
    newWalParser.parsePages (stream.segment n).pages = (.ok outputs, parser) ∧
      parser.currentRecordData = stream.head n ∧
      Yields outputs (stream.tail n) ((stream.inner n).map RawRecord.record) ∧
      (stream.Supplies n → parser = (stream.crossing (n + 1)).parser 0) := by
  obtain ⟨hboundary, hcut⟩ := parsePages_reassembles (stream.frames n) (stream.before n).2
  rcases stream.crossing_cases n with hcrossing | ⟨s, hcrossing⟩
  · have hsegment : writePages (stream.frames n) .boundary (stream.before n).2 = stream.segment n := by
      rw [segment, ← hcrossing]
      rfl
    rw [hsegment] at hboundary
    obtain ⟨outputs, hrun, hcollected, -⟩ := hboundary
    have hyields := Yields.of_tails hcollected.tails
    rw [hcollected.records_eq, isEmpty_map] at hyields
    refine ⟨outputs, _, hrun, ?_, ?_, fun _ => ?_⟩
    · rw [head, hcrossing, show Carry.boundary.written = 0 from rfl, ite_self]
      rfl
    · rw [tail, inner, hcrossing]
      exact hyields
    · rw [setCurrentRecordData_head, crossing_succ, Carry.parser_nextSegment]
  · have hsegment : writePages (stream.frames n) (.cut s) (stream.before n).2 = stream.segment n := by
      rw [segment, ← hcrossing]
      rfl
    obtain ⟨outputs, parser, hrun, -, hcases⟩ := hcut s
    rw [hsegment] at hrun hcases
    refine ⟨outputs, parser, hrun, ?_⟩
    rw [head, tail, inner, Supplies, hcrossing]
    rcases hcases with ⟨hnone, hquiet, hdata⟩ | ⟨later, hcompleted, hjoined, hparser⟩
    · -- the record covers the whole segment
      rw [hnone]
      refine ⟨hdata, ?_, fun hsupplies => absurd hsupplies (not_or.mpr ⟨s.written_pos.ne', fun h => h rfl⟩)⟩
      have hyields := Yields.nil.append_quiet hquiet
      rwa [append_nil] at hyields
    · obtain ⟨earlier, first, after, rfl, hearlier, htail, hcollected, hrecords⟩ := hjoined.split
      have hne : first.prevRecordTail ≠ [] := by
        rw [htail, ← length_pos_iff, Cut.rest, length_drop]
        exact Nat.sub_pos_of_lt s.written_lt
      have hlater : first.records ++ after.flatMap PageRecords.records = later.map RawRecord.record := by
        rw [hcollected.records_eq]
        refine (congrArg (· ++ _) hrecords).trans ?_
        rw [← map_append, take_append_drop]
      have hyields := Yields.first (.inl hne) hcollected.tails
      rw [htail, hlater] at hyields
      rw [hcompleted, hparser]
      refine ⟨rfl, hyields.append_quiet hearlier, fun _ => ?_⟩
      rw [setCurrentRecordData_head, crossing_succ, Carry.parser_nextSegment]

/-- The pages of some segments in a row. -/
def pages (first count : ℕ) : List Bytes := (range' first count).flatMap fun n => (stream.segment n).pages

/-- The records that end in some segments in a row. -/
def completed (first count : ℕ) : List RawRecord :=
  (range' first count).flatMap fun n => (stream.segment n).completed

theorem parsePages_append {parser parser' : WalParser} {pages : List Bytes} {outputs : List PageRecords}
    (h : parser.parsePages pages = (.ok outputs, parser')) {later : List Bytes} {outputs' : List PageRecords}
    {parser'' : WalParser} (h' : parser'.parsePages later = (.ok outputs', parser'')) :
    parser.parsePages (pages ++ later) = (.ok (outputs ++ outputs'), parser'') := by
  induction pages generalizing parser outputs with
  | nil =>
    obtain ⟨houtputs, rfl⟩ := Prod.mk.inj h
    rw [← Except.ok.inj houtputs]
    exact h'
  | cons page pages ih =>
    rw [cons_append, WalParser.parsePages]
    rw [WalParser.parsePages] at h
    split at h
    · exact ih h
    · cases h
    · split at h
      · cases h
      · rename_i outputs₁ last hpages
        obtain ⟨houtputs, rfl⟩ := Prod.mk.inj h
        rw [ih hpages, ← Except.ok.inj houtputs]
        rfl

/-- A parser in step with the writer returns the records of all segments. -/
theorem parsePages_pages (first count : ℕ) : ∃ outputs,
    ((stream.crossing first).parser 0).parsePages (stream.pages first count) =
      (.ok outputs, (stream.crossing (first + count)).parser 0) ∧
      Collected outputs (stream.completed first count) := by
  induction count generalizing first with
  | zero => exact ⟨[], rfl, ⟨by simp, rfl⟩⟩
  | succ count ih =>
    obtain ⟨outputs, hrun, hcollected⟩ := parsePages_inStep (stream.frames first) (stream.crossing first)
      (stream.before first).2
    obtain ⟨later, hlater, hcollected'⟩ := ih (first + 1)
    have hnext : (stream.segment first).carry.parser 0 = (stream.crossing (first + 1)).parser 0 := by
      rw [crossing_succ, Carry.parser_nextSegment]
    refine ⟨outputs ++ later, ?_, ?_, ?_⟩
    · rw [pages, range'_succ, flatMap_cons, ← Nat.add_assoc, Nat.add_right_comm]
      exact parsePages_append (hrun.trans (by rw [← hnext]; rfl)) hlater
    · exact forall_mem_append.mpr ⟨hcollected.tails, hcollected'.tails⟩
    · rw [completed, range'_succ, flatMap_cons, flatMap_append, hcollected.records_eq,
        hcollected'.records_eq, map_append]
      rfl

/-- It finds the blocks of exactly the records that end there, in order, and stays in step. -/
theorem extractLocationsFromWalFile_pages (first count : ℕ) :
    extractLocationsFromWalFile ((stream.crossing first).parser 0) (stream.pages first count) =
      (.ok (extractBlockLocations ((stream.completed first count).map RawRecord.record)),
        (stream.crossing (first + count)).parser 0) := by
  obtain ⟨outputs, hrun, hcollected⟩ := stream.parsePages_pages first count
  rw [extractLocationsFromWalFile, hrun, ← hcollected.records_eq]
  simp only [extractBlockLocations, flatMap_assoc]

end WalStream

end WalG.XLog
