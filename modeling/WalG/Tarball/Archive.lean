import WalG.Foundation.Bytes
import WalG.Foundation.Text

/-! # Tar archives in a byte buffer

A tar writer puts headers and data into a buffer, fills each entry up to whole blocks before the
next header and ends the archive with two empty blocks.
-/
namespace WalG.Tarball
open Foundation List

variable (cells : List Cell) (k : ℕ)

structure Header where
  name : Text
  isDir : Bool
  size : ℕ
  modTime : ℤ
  deriving DecidableEq

/-- One byte: the first or a later one of a header, a byte of data, or filling. -/
inductive Cell where
  | header (h : Header)
  | block
  | data (b : UInt8)
  | zero
  deriving DecidableEq

def Cell.isHeader : Cell → Bool
  | .header _ => true
  | _ => false

def Cell.data? : Cell → Option UInt8
  | .data b => some b
  | _ => none

def headerBlock (h : Header) : List Cell := .header h :: replicate 511 .block

def dataOf (cells : List Cell) : Bytes := cells.filterMap Cell.data?

/-- The entries of an archive: each header with the data up to the next one. -/
def entriesOf : List Cell → List (Header × Bytes)
  | [] => []
  | .header h :: cells => (h, dataOf (cells.takeWhile (!·.isHeader))) :: entriesOf cells
  | _ :: cells => entriesOf cells

theorem entriesOf_header (h : Header) : entriesOf (.header h :: cells) =
    (h, dataOf (cells.takeWhile (!·.isHeader))) :: entriesOf cells := rfl

/-- No header is among the cells. -/
def Plain (cells : List Cell) : Prop := ∀ c ∈ cells, c.isHeader = false

theorem Plain.append {cells cells' : List Cell} (h : Plain cells) (h' : Plain cells') : Plain (cells ++ cells') := by
  intro c hc
  rcases mem_append.mp hc with hc | hc
  · exact h c hc
  · exact h' c hc

theorem plain_zeros : Plain (replicate k .zero) := by
  intro c hc
  rw [eq_of_mem_replicate hc]
  rfl

theorem plain_blocks : Plain (replicate k .block) := by
  intro c hc
  rw [eq_of_mem_replicate hc]
  rfl

theorem plain_data (b : Bytes) : Plain (b.map .data) := by
  intro c hc
  obtain ⟨x, -, rfl⟩ := mem_map.mp hc
  rfl

theorem dataOf_append (cells' : List Cell) : dataOf (cells ++ cells') = dataOf cells ++ dataOf cells' :=
  filterMap_append

theorem dataOf_data (b : Bytes) : dataOf (b.map .data) = b := by
  induction b with
  | nil => rfl
  | cons x b ih =>
    have hcons : dataOf ((x :: b).map .data) = x :: dataOf (b.map .data) := rfl
    rw [hcons, ih]

theorem dataOf_zeros : dataOf (replicate k .zero) = [] := by
  rw [dataOf, filterMap_eq_nil_iff]
  intro c hc
  rw [eq_of_mem_replicate hc]
  rfl

theorem dataOf_blocks : dataOf (replicate k .block) = [] := by
  rw [dataOf, filterMap_eq_nil_iff]
  intro c hc
  rw [eq_of_mem_replicate hc]
  rfl

theorem takeWhile_plain {cells : List Cell} (h : Plain cells) : cells.takeWhile (!·.isHeader) = cells :=
  takeWhile_eq_self_iff.mpr fun c hc => by rw [h c hc]; rfl

theorem entriesOf_plain {cells : List Cell} (h : Plain cells) : entriesOf cells = [] := by
  induction cells with
  | nil => rfl
  | cons c cells ih =>
    have hcells : Plain cells := fun d hd => h d (mem_cons_of_mem _ hd)
    cases c with
    | header header => cases h _ mem_cons_self
    | block => exact ih hcells
    | data b => exact ih hcells
    | zero => exact ih hcells

theorem entriesOf_append_header (h : Header) {rest : List Cell} (hrest : Plain rest) :
    entriesOf (cells ++ .header h :: rest) = entriesOf cells ++ [(h, dataOf rest)] := by
  induction cells with
  | nil =>
    rw [nil_append, entriesOf_header, takeWhile_plain hrest, entriesOf_plain hrest]
    rfl
  | cons c cells ih =>
    cases c with
    | header h' =>
      have htake : (cells ++ .header h :: rest).takeWhile (!·.isHeader) = cells.takeWhile (!·.isHeader) := by
        clear ih
        induction cells with
        | nil => rfl
        | cons d cells ih =>
          rw [cons_append, takeWhile_cons, takeWhile_cons, ih]
      rw [cons_append, entriesOf_header, htake, ih, entriesOf_header, cons_append]
    | block => exact ih
    | data b => exact ih
    | zero => exact ih

theorem entriesOf_append_empty {rest : List Cell} (hrest : Plain rest)
    (hdata : dataOf rest = []) : entriesOf (cells ++ rest) = entriesOf cells := by
  induction cells with
  | nil => rw [nil_append, entriesOf_plain hrest, entriesOf]
  | cons c cells ih =>
    cases c with
    | header h =>
      have htake : dataOf ((cells ++ rest).takeWhile (!·.isHeader)) =
          dataOf (cells.takeWhile (!·.isHeader)) := by
        clear ih
        induction cells with
        | nil => rw [nil_append, takeWhile_plain hrest, hdata, takeWhile_nil]; rfl
        | cons d cells ih =>
          rw [cons_append, takeWhile_cons, takeWhile_cons]
          split_ifs
          · rw [← singleton_append, dataOf_append, ih, ← dataOf_append, singleton_append]
          · rfl
      rw [cons_append, entriesOf_header, htake, ih, entriesOf_header]
    | block => exact ih
    | data b => exact ih
    | zero => exact ih

theorem entriesOf_append_zeros : entriesOf (cells ++ replicate k .zero) = entriesOf cells :=
  entriesOf_append_empty cells (plain_zeros k) (dataOf_zeros k)

/-- The archive is in an entry of which some data have been written. -/
def InEntry (cells : List Cell) (entries : List (Header × Bytes)) (h : Header) (written : Bytes) : Prop :=
  ∃ before rest, cells = before ++ .header h :: rest ∧ Plain rest ∧ dataOf rest = written ∧
    entriesOf before = entries

namespace InEntry

variable {cells : List Cell} {entries : List (Header × Bytes)} {h : Header} {written : Bytes}

theorem entriesOf_eq (hin : InEntry cells entries h written) : entriesOf cells = entries ++ [(h, written)] := by
  obtain ⟨before, rest, rfl, hplain, rfl, rfl⟩ := hin
  exact entriesOf_append_header before h hplain

theorem append (hin : InEntry cells entries h written) (b : Bytes) :
    InEntry (cells ++ b.map .data) entries h (written ++ b) := by
  obtain ⟨before, rest, rfl, hplain, rfl, rfl⟩ := hin
  refine ⟨before, rest ++ b.map .data, ?_, hplain.append (plain_data b), ?_, rfl⟩
  · rw [append_assoc, cons_append]
  · rw [dataOf_append, dataOf_data]

end InEntry

theorem inEntry_header (h : Header) :
    InEntry (cells ++ (replicate k .zero ++ headerBlock h)) (entriesOf cells) h [] := by
  refine ⟨cells ++ replicate k .zero, replicate 511 .block, ?_, plain_blocks _,
    dataOf_blocks _, entriesOf_append_zeros cells k⟩
  rw [← append_assoc]
  rfl

inductive StreamError where
  | eof
  | outputEOF
  | inputIsDir
  | headerAlreadySet
  | writeTooLong
  | missedWriting
  | teeIncomplete
  | nilPointer
  deriving DecidableEq, Repr

/-- The bytes of the current entry still to be written, and the filling after it. -/
structure TarWriter where
  nb : ℕ
  pad : ℕ
  deriving DecidableEq

namespace TarWriter

def new : TarWriter := ⟨0, 0⟩

def blockPadding (size : ℕ) : ℕ := (512 - size % 512) % 512

def writeHeader (w : TarWriter) (h : Header) : Except StreamError (TarWriter × List Cell) :=
  if w.nb ≠ 0 then .error .missedWriting
  else .ok (⟨h.size, blockPadding h.size⟩, replicate w.pad .zero ++ headerBlock h)

/-- The number of bytes written is returned with an error if it is not all. -/
def write (w : TarWriter) (b : Bytes) : TarWriter × List Cell × ℕ × Option StreamError :=
  let n := min b.length w.nb
  (⟨w.nb - n, w.pad⟩, (b.take n).map .data, n, if w.nb < b.length then some .writeTooLong else none)

def close (w : TarWriter) : Except StreamError (List Cell) :=
  if w.nb ≠ 0 then .error .missedWriting
  else .ok (replicate w.pad .zero ++ replicate 1024 .zero)

theorem writeHeader_of_nb {w : TarWriter} (hw : w.nb = 0) (h : Header) :
    w.writeHeader h = .ok (⟨h.size, blockPadding h.size⟩, replicate w.pad .zero ++ headerBlock h) :=
  if_neg (not_not.mpr hw)

theorem write_of_le {w : TarWriter} {b : Bytes} (hb : b.length ≤ w.nb) :
    w.write b = (⟨w.nb - b.length, w.pad⟩, b.map .data, b.length, none) := by
  rw [write, Nat.min_eq_left hb, if_neg hb.not_gt, take_length]

theorem write_full {w : TarWriter} {b : Bytes} (hw : w.nb = 0) (hb : b ≠ []) :
    w.write b = (w, [], 0, some .writeTooLong) := by
  have hpos : 0 < b.length := length_pos_iff.mpr hb
  cases w
  subst hw
  rw [write, Nat.min_zero, if_pos hpos]
  rfl

end TarWriter

end WalG.Tarball
