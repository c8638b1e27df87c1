import WalG.XLog.Page

/-! # How the server lays records out on pages

Records follow each other at aligned offsets.
-/
namespace WalG.XLog
open Foundation List

def zeros (n : ℕ) : Bytes := replicate n 0

/-- The next aligned length. -/
def alignUp (n : ℕ) : ℕ := (n + 7) / 8 * 8

/-- A record as the server writes it: its bytes are a record of just that length. -/
structure RawRecord where
  data : Bytes
  record : XLogRecord
  parses : parseXLogRecordFromBytes data = .ok record
  length_eq : record.header.totalRecordLength = data.length

/-- A record without blocks and with two bytes of main data. -/
example : parseXLogRecordFromBytes (leBytes 4 28 ++ leBytes 12 0 ++ [0x20, 0, 0, 0] ++ leBytes 4 7 ++ [255, 2, 1, 1]) =
    .ok ⟨⟨28, 0, 0, 0x20, 0, 7⟩, 2, 0, [], [1, 1]⟩ := by
  decide +kernel

/-- A record of which the first `written` bytes stand on earlier pages. -/
structure Cut where
  raw : RawRecord
  written : ℕ
  written_pos : 0 < written
  written_lt : written < raw.data.length

namespace Cut

variable (s : Cut)

/-- The bytes written so far. -/
def head : Bytes := s.raw.data.take s.written

/-- The bytes still to be written. -/
def rest : Bytes := s.raw.data.drop s.written

end Cut

/-- What the writer is at when a page begins. -/
inductive Carry where
  /-- Between two records. -/
  | boundary
  /-- Inside a record. -/
  | cut (s : Cut)
  /-- Behind a switch of the segment. -/
  | idle

/-- A page body, the records that end on it, and where the writer stands behind it. -/
structure Filled where
  body : Bytes
  completed : List RawRecord
  carry : Carry
  queue : List RawRecord

/-- The last bytes of a record, and behind them the records that follow or, after a switch, nothing. -/
def Filled.finish (capacity : ℕ) (raw : RawRecord) (rest : Bytes) (queue : List RawRecord) (next : ℕ → Filled) :
    Filled :=
  if raw.record.isWALSwitch then ⟨rest ++ zeros (capacity - rest.length), [raw], .idle, queue⟩
  else
    let following := next (capacity - alignUp rest.length)
    ⟨rest ++ zeros (alignUp rest.length - rest.length) ++ following.body, raw :: following.completed,
      following.carry, following.queue⟩

/-- Fill the rest of a page from a record boundary on. -/
def fillRecords : List RawRecord → ℕ → Filled
  | [], capacity => ⟨zeros capacity, [], .boundary, []⟩
  | raw :: queue, capacity =>
    if hpos : capacity = 0 then ⟨[], [], .boundary, raw :: queue⟩
    else if hlt : capacity < raw.data.length then
      ⟨raw.data.take capacity, [], .cut ⟨raw, capacity, Nat.pos_of_ne_zero hpos, hlt⟩, queue⟩
    else .finish capacity raw raw.data queue (fillRecords queue)

def fillPage (capacity : ℕ) : Carry → List RawRecord → Filled
  | .boundary, queue => fillRecords queue capacity
  | .idle, queue => ⟨zeros capacity, [], .idle, queue⟩
  | .cut s, queue =>
    if hlt : capacity < s.rest.length then
      ⟨s.rest.take capacity, [], .cut ⟨s.raw, s.written + capacity, Nat.add_pos_left s.written_pos _, by
        rw [Cut.rest, length_drop] at hlt
        omega⟩, queue⟩
    else .finish capacity s.raw s.rest queue (fillRecords queue)

/-- The part of a page header that is not determined by the records. -/
structure PageFrame where
  magic : ℕ
  magic_pos : 0 < magic
  magic_lt : magic < 2 ^ 16
  timeLineID : ℕ
  pageAddress : ℕ
  bkpRemovable : Bool
  /-- System identifier, segment size and page size of a long header. -/
  long : Option (ℕ × ℕ × ℕ)
  /-- A page on which nothing is written may be left without a header. -/
  blank : Bool

namespace PageFrame

variable (frame : PageFrame)

def info (remainingDataLen : ℕ) : ℕ :=
  (if remainingDataLen = 0 then 0 else 1) + (if frame.long.isSome then 2 else 0) + (if frame.bkpRemovable then 4 else 0)

def longData : Bytes :=
  match frame.long with
  | none => []
  | some (systemID, segmentSize, xLogBlockSize) =>
    leBytes 8 systemID ++ leBytes 4 segmentSize ++ leBytes 4 xLogBlockSize

def header (remainingDataLen : ℕ) : Bytes :=
  leBytes 2 frame.magic ++ leBytes 2 (frame.info remainingDataLen) ++ leBytes 4 frame.timeLineID ++
    leBytes 8 frame.pageAddress ++ leBytes 4 remainingDataLen ++ zeros 4 ++ frame.longData

def headerSize : ℕ := if frame.long.isSome then 40 else 24

def capacity : ℕ := walPageSize - frame.headerSize

end PageFrame

def Carry.remainingDataLen : Carry → ℕ
  | .cut s => s.rest.length
  | _ => 0

/-- Whether no record has bytes to write at this place. -/
def Carry.isEmpty : Carry → List RawRecord → Bool
  | .idle, _ => true
  | .boundary, [] => true
  | _, _ => false

def writePage (frame : PageFrame) (carry : Carry) (queue : List RawRecord) : Bytes :=
  if frame.blank && carry.isEmpty queue then zeros walPageSize
  else frame.header carry.remainingDataLen ++ (fillPage frame.capacity carry queue).body

/-- Pages in a row, the records that end on them, and where the writer stands behind them. -/
structure Written where
  pages : List Bytes
  completed : List RawRecord
  carry : Carry
  queue : List RawRecord

def writePages : List PageFrame → Carry → List RawRecord → Written
  | [], carry, queue => ⟨[], [], carry, queue⟩
  | frame :: frames, carry, queue =>
    let filled := fillPage frame.capacity carry queue
    let later := writePages frames filled.carry filled.queue
    ⟨writePage frame carry queue :: later.pages, filled.completed ++ later.completed, later.carry, later.queue⟩

section Sizes

variable (queue : List RawRecord) (capacity n : ℕ) (frame : PageFrame) (carry : Carry)

@[simp] theorem zeros_length : (zeros n).length = n := length_replicate

theorem le_alignUp : n ≤ alignUp n := by
  unfold alignUp
  omega

theorem alignUp_le {n c : ℕ} (h : n ≤ c) (hc : c % 8 = 0) : alignUp n ≤ c := by
  unfold alignUp
  omega

theorem alignUp_mod : alignUp n % 8 = 0 := by
  unfold alignUp
  omega

theorem PageFrame.header_length (remainingDataLen : ℕ) :
    (frame.header remainingDataLen).length = frame.headerSize := by
  unfold header headerSize longData
  cases frame.long with
  | none => simp
  | some data => simp

theorem PageFrame.capacity_mod : frame.capacity % 8 = 0 := by
  unfold capacity headerSize walPageSize
  split_ifs <;> rfl

theorem PageFrame.capacity_add : frame.headerSize + frame.capacity = walPageSize := by
  unfold capacity headerSize walPageSize
  split_ifs <;> rfl

theorem Filled.finish_length {capacity : ℕ} {raw : RawRecord} {rest : Bytes} {queue : List RawRecord}
    {next : ℕ → Filled} (hc : capacity % 8 = 0) (hle : rest.length ≤ capacity)
    (hnext : ∀ c, c % 8 = 0 → (next c).body.length = c) :
    (finish capacity raw rest queue next).body.length = capacity := by
  have h₁ := le_alignUp rest.length
  have h₂ := alignUp_le hle hc
  have h₃ := alignUp_mod rest.length
  unfold finish
  split_ifs
  · simp only [length_append, zeros_length]
    omega
  · simp only [length_append, zeros_length, hnext (capacity - alignUp rest.length) (by omega)]
    omega

theorem fillRecords_length (hc : capacity % 8 = 0) : (fillRecords queue capacity).body.length = capacity := by
  induction queue generalizing capacity with
  | nil => simp [fillRecords]
  | cons raw queue ih =>
    rw [fillRecords]
    split_ifs with hzero hlt
    · exact hzero.symm
    · rw [length_take, min_eq_left hlt.le]
    · exact Filled.finish_length hc (by omega) ih

theorem fillPage_length (hc : capacity % 8 = 0) : (fillPage capacity carry queue).body.length = capacity := by
  cases carry with
  | boundary => exact fillRecords_length queue capacity hc
  | idle => simp [fillPage]
  | cut s =>
    rw [fillPage]
    split_ifs with hlt
    · rw [length_take, min_eq_left hlt.le]
    · exact Filled.finish_length hc (by omega) fun c => fillRecords_length queue c

theorem writePage_length : (writePage frame carry queue).length = walPageSize := by
  unfold writePage
  split_ifs
  · exact zeros_length _
  · rw [length_append, frame.header_length, fillPage_length _ _ _ frame.capacity_mod, frame.capacity_add]

end Sizes

section Conservation

/-- The record the writer is inside. -/
def Carry.unfinished : Carry → List RawRecord
  | .cut s => [s.raw]
  | _ => []

theorem Filled.finish_completed (capacity : ℕ) (raw : RawRecord) (rest : Bytes) (queue : List RawRecord)
    (next : ℕ → Filled) : (finish capacity raw rest queue next).completed =
      raw :: (finish capacity raw rest queue next).completed.tail := by
  rw [finish]
  split_ifs <;> rfl

theorem Filled.finish_records {capacity : ℕ} {raw : RawRecord} {rest : Bytes} {queue : List RawRecord}
    {next : ℕ → Filled} (hnext : ∀ c, (next c).completed ++ (next c).carry.unfinished ++ (next c).queue = queue) :
    (finish capacity raw rest queue next).completed ++ (finish capacity raw rest queue next).carry.unfinished ++
      (finish capacity raw rest queue next).queue = raw :: queue := by
  unfold finish
  split_ifs
  · simp [Carry.unfinished]
  · simpa using hnext (capacity - alignUp rest.length)

theorem fillRecords_records (queue : List RawRecord) (capacity : ℕ) :
    (fillRecords queue capacity).completed ++ (fillRecords queue capacity).carry.unfinished ++
      (fillRecords queue capacity).queue = queue := by
  induction queue generalizing capacity with
  | nil => simp [fillRecords, Carry.unfinished]
  | cons raw queue ih =>
    rw [fillRecords]
    split_ifs
    · simp [Carry.unfinished]
    · simp [Carry.unfinished]
    · exact Filled.finish_records ih

theorem fillPage_records (capacity : ℕ) (carry : Carry) (queue : List RawRecord) :
    (fillPage capacity carry queue).completed ++ (fillPage capacity carry queue).carry.unfinished ++
      (fillPage capacity carry queue).queue = carry.unfinished ++ queue := by
  cases carry with
  | boundary => exact fillRecords_records queue capacity
  | idle => simp [fillPage, Carry.unfinished]
  | cut s =>
    rw [fillPage]
    split_ifs
    · simp [Carry.unfinished]
    · exact Filled.finish_records (fillRecords_records queue)

/-- No record is lost or reordered by the layout: those that end on the pages, the one
cut off at their end and those not begun are the given ones. -/
theorem writePages_records (frames : List PageFrame) (carry : Carry) (queue : List RawRecord) :
    (writePages frames carry queue).completed ++ (writePages frames carry queue).carry.unfinished ++
      (writePages frames carry queue).queue = carry.unfinished ++ queue := by
  induction frames generalizing carry queue with
  | nil => simp [writePages]
  | cons frame frames ih =>
    simp only [writePages, append_assoc] at ih ⊢
    rw [ih, ← append_assoc, fillPage_records]

end Conservation

end WalG.XLog
