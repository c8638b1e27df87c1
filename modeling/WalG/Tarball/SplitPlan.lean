import WalG.Tarball.Pipe

/-! # Where the output tars are split

Which entries open a new tar follows from their sizes alone.
-/
namespace WalG.Tarball
open Foundation List

section Plan

variable (c : Config)

def Config.out (e : Entry) : Header × Bytes := (c.remap e.header, e.data)

def Config.inTee (e : Entry) : Bool := (c.remap e.header).name ∈ c.tee

def Config.path (e : Entry) : Text := filePath (c.remap e.header)

/-- The entries with whether they open a new tar, given the size of the current one. -/
def splitPlan : ℕ → List Entry → List (Entry × Bool)
  | _, [] => []
  | size, e :: entries =>
    if size = 0 ∧ c.maxTarSize ≤ e.data.length then (e, false) :: splitPlan (size + e.data.length) entries
    else if c.maxTarSize ≤ size + e.data.length then (e, true) :: splitPlan 0 entries
    else (e, false) :: splitPlan (size + e.data.length) entries

/-- The entries that were added to an open tar. -/
def added (done : List (Entry × Bool)) : List Entry := (done.filter (!·.2)).map Prod.fst

def written (done : List (Entry × Bool)) : List (Header × Bytes) := done.map fun d => c.out d.1

def teed (done : List (Entry × Bool)) : List (Header × Bytes) := ((added done).filter c.inTee).map c.out

def lastTeed (done : List (Entry × Bool)) : Bool := (added done).getLast?.any c.inTee

def listed (done : List (Entry × Bool)) : List Text := ((added done).filter (!·.isDir)).map c.path

variable {c} {done : List (Entry × Bool)} {e : Entry}

theorem splitPlan_entries (size : ℕ) (entries : List Entry) : (splitPlan c size entries).map Prod.fst = entries := by
  induction entries generalizing size with
  | nil => rfl
  | cons e entries ih =>
    rw [splitPlan]
    split_ifs <;> rw [map_cons, ih]

@[simp] theorem added_concat_false : added (done ++ [(e, false)]) = added done ++ [e] := by
  rw [added, filter_append, map_append]
  rfl

@[simp] theorem added_concat_true : added (done ++ [(e, true)]) = added done := by
  rw [added, filter_append, map_append]
  exact append_nil _

theorem written_concat (split : Bool) : written c (done ++ [(e, split)]) = written c done ++ [c.out e] := by
  rw [written, map_append]
  rfl

theorem teed_concat_true : teed c (done ++ [(e, true)]) = teed c done := by
  rw [teed, added_concat_true, teed]

theorem teed_concat_false : teed c (done ++ [(e, false)]) = teed c done ++ if c.inTee e then [c.out e] else [] := by
  rw [teed, added_concat_false, filter_append, map_append, teed]
  cases h : c.inTee e with
  | false => simp [h]
  | true => simp [h]

theorem lastTeed_concat_true : lastTeed c (done ++ [(e, true)]) = lastTeed c done := by
  rw [lastTeed, added_concat_true, lastTeed]

theorem lastTeed_concat_false : lastTeed c (done ++ [(e, false)]) = c.inTee e := by
  rw [lastTeed, added_concat_false, getLast?_concat, Option.any_some]

theorem listed_concat_true : listed c (done ++ [(e, true)]) = listed c done := by
  rw [listed, added_concat_true, listed]

theorem listed_concat_false : listed c (done ++ [(e, false)]) =
    listed c done ++ if e.isDir then [] else [c.path e] := by
  rw [listed, added_concat_false, filter_append, map_append, listed]
  cases h : e.isDir with
  | false => simp [h]
  | true => simp [h]

end Plan

namespace Streamer

variable {c : Config} {s : Streamer} {h : Header} {w : TarWriter}

theorem openOutput_idle (hcur : s.curHeader = none) (hsize : s.outputTar = none → s.tarFileReadIndex = 0) :
    s.openOutput = ({ s with outputTar := some (s.outputTar.getD .new) }, none) := by
  cases s
  rw [openOutput]
  rename_i outputTar _ _ _ _ _
  cases outputTar with
  | none =>
    subst hcur
    rw [hsize rfl]
    rfl
  | some w => rfl

theorem openOutput_waiting (hcur : s.curHeader = some h) (htar : s.outputTar = none) :
    s.openOutput = ({ s with
      tarFileReadIndex := 0
      outputTar := some ⟨h.size, TarWriter.blockPadding h.size⟩
      outputIo := s.outputIo ++ headerBlock h }, none) := by
  cases s
  subst hcur htar
  rfl

theorem openOutput_open (htar : s.outputTar = some w) : s.openOutput = (s, none) := by
  rw [openOutput, htar]

/-- The header goes to the output tar, and to the tee tar if the entry is named there. -/
def withHeader (c : Config) (s : Streamer) (w : TarWriter) (h : Header) : Streamer :=
  { s with
    outputTar := some ⟨h.size, TarWriter.blockPadding h.size⟩
    outputIo := s.outputIo ++ (replicate w.pad .zero ++ headerBlock h)
    teeing := h.name ∈ c.tee
    teeTar := if h.name ∈ c.tee then ⟨h.size, TarWriter.blockPadding h.size⟩ else s.teeTar
    teeIo := if h.name ∈ c.tee then s.teeIo ++ (replicate s.teeTar.pad .zero ++ headerBlock h)
      else s.teeIo }

theorem addFile_eq (hw : s.outputTar = some w) (hnb : w.nb = 0) (htee : s.teeTar.nb = 0) :
    s.addFile c h = ((s.withHeader c w h).listFile h, none) := by
  rw [addFile, writeOutputHeader, hw]
  dsimp only
  rw [TarWriter.writeHeader_of_nb hnb]
  dsimp only
  by_cases hmem : h.name ∈ c.tee
  · rw [if_pos hmem, writeTeeHeader]
    rw [TarWriter.writeHeader_of_nb htee]
    simp only [withHeader, hmem, decide_true, if_true]
  · rw [if_neg hmem]
    simp only [withHeader, hmem, decide_false, if_false]

/-- The state after a pump: the next data of the file are in the output tar, and in the
tee tar if the file is copied. -/
def afterPump (s : Streamer) (h : Header) (w : TarWriter) : Streamer :=
  { s with
    remaining := s.remaining.drop ioBufSize
    inputBuf := s.remaining.take ioBufSize
    bufReadIndex := (s.remaining.take ioBufSize).length
    fileReadIndex := s.fileReadIndex + (s.remaining.take ioBufSize).length
    curHeader := if s.remaining.drop ioBufSize = [] then none else some h
    outputTar := some ⟨w.nb - (s.remaining.take ioBufSize).length, w.pad⟩
    outputIo := s.outputIo ++ (s.remaining.take ioBufSize).map .data
    teeTar := if s.teeing then ⟨s.teeTar.nb - (s.remaining.take ioBufSize).length, s.teeTar.pad⟩
      else s.teeTar
    teeIo := if s.teeing then s.teeIo ++ (s.remaining.take ioBufSize).map .data else s.teeIo }

theorem afterPump_plain (hteeing : s.teeing = false) : (s.afterRead h).afterWrite w = s.afterPump h w := by
  rw [afterPump, hteeing]
  simp only [afterWrite, afterRead, Bool.false_eq_true, if_false]
  rw [hteeing]

theorem afterPump_tee (hteeing : s.teeing = true) : ((s.afterRead h).afterWrite w).afterTee = s.afterPump h w := by
  rw [afterPump, hteeing]
  simp only [afterTee, afterWrite, afterRead, if_true]
  rw [hteeing]

theorem pump_file (hcur : s.curHeader = some h) (hdir : h.isDir = false)
    (hbuf : s.inputBuf.length ≤ s.bufReadIndex) (hsize : s.fileReadIndex + s.remaining.length = h.size)
    (hw : s.outputTar = some w) (hnb : w.nb = s.remaining.length)
    (htee : s.teeing = true → s.teeTar.nb = s.remaining.length) : s.pump = (s.afterPump h w, none) := by
  have hle : (s.afterRead h).inputBuf.length ≤ s.remaining.length := length_take_le' _ _
  rw [pump, readData_file hcur hdir hbuf hsize]
  cases hteeing : s.teeing with
  | false =>
    rw [← afterPump_plain hteeing]
    exact writeData_plain rfl hw (hle.trans_eq hnb.symm) hteeing
  | true =>
    rw [← afterPump_tee hteeing]
    exact writeData_tee rfl hw (hle.trans_eq hnb.symm) hteeing (hle.trans_eq (htee hteeing).symm)

theorem pump_tooLong (hcur : s.curHeader = some h) (hdir : h.isDir = false)
    (hbuf : s.inputBuf.length ≤ s.bufReadIndex) (hsize : s.fileReadIndex + s.remaining.length = h.size)
    (hw : s.outputTar = some w) (hnb : w.nb = s.remaining.length) (hteeing : s.teeing = true)
    (htee : s.teeTar.nb = 0) (hne : s.remaining ≠ []) : ∃ s', s.pump = (s', some .writeTooLong) := by
  have hle : (s.afterRead h).inputBuf.length ≤ s.remaining.length := length_take_le' _ _
  have hbuf' : (s.afterRead h).inputBuf ≠ [] := by
    intro hnil
    rcases take_eq_nil_iff.mp hnil with hzero | hnil
    · exact absurd hzero (by decide)
    · exact hne hnil
  rw [pump, readData_file hcur hdir hbuf hsize]
  exact writeData_tooLong hbuf' rfl hw (hle.trans_eq hnb.symm) hteeing htee

end Streamer

end WalG.Tarball
