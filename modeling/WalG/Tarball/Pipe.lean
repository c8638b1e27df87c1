import WalG.Tarball.Streamer

/-! # What one pull does

With an empty output buffer a read pulls once from the input: a header with the first data, more
data of the current file, the end of a tar or the end of the input.
-/
namespace WalG.Tarball
open Foundation List

namespace Streamer

variable {c : Config} {s : Streamer} {h : Header}

/-- Read data and write them, after the header. -/
def pump (s : Streamer) : Streamer × Option StreamError :=
  match s.readData with
  | (s, none) => s.writeData
  | (s, some .headerAlreadySet) => s.writeData
  | (s, some e) => (s, some e)

theorem pipeFileData_pump {s' : Streamer} (hio : s.outputIo = [])
    (hnext : s.nextInputFile c = (s', none) ∨ s.nextInputFile c = (s', some .headerAlreadySet)) :
    s.pipeFileData c = s'.pump := by
  rw [pipeFileData, if_neg (not_not.mpr hio), readFileData]
  rcases hnext with hnext | hnext
  · rw [hnext]
    rfl
  · rw [hnext]
    rfl

theorem pipeFileData_error {s' : Streamer} {e : StreamError} (hio : s.outputIo = [])
    (hnext : s.nextInputFile c = (s', some e)) (he : e ≠ .headerAlreadySet) : s.pipeFileData c = (s', some e) := by
  rw [pipeFileData, if_neg (not_not.mpr hio), readFileData, hnext]
  cases e with
  | headerAlreadySet => exact absurd rfl he
  | eof => rfl
  | outputEOF => rfl
  | inputIsDir => rfl
  | writeTooLong => rfl
  | missedWriting => rfl
  | teeIncomplete => rfl
  | nilPointer => rfl

theorem pump_dir (hcur : s.curHeader = some h) (hdir : h.isDir = true) :
    s.pump = ({ s with curHeader := none }, some .inputIsDir) := by
  rw [pump, readData, hcur]
  dsimp only
  rw [if_pos hdir]

/-- The state after the next data of a file have been read. -/
def afterRead (s : Streamer) (h : Header) : Streamer :=
  { s with
    remaining := s.remaining.drop ioBufSize
    inputBuf := s.remaining.take ioBufSize
    bufReadIndex := 0
    fileReadIndex := s.fileReadIndex + (s.remaining.take ioBufSize).length
    curHeader := if s.remaining.drop ioBufSize = [] then none else some h }

theorem readData_file (hcur : s.curHeader = some h) (hdir : h.isDir = false)
    (hbuf : s.inputBuf.length ≤ s.bufReadIndex) (hsize : s.fileReadIndex + s.remaining.length = h.size) :
    s.readData = (s.afterRead h, none) := by
  have hsplit : (s.remaining.take ioBufSize).length + (s.remaining.drop ioBufSize).length =
      s.remaining.length := by
    rw [← length_append, take_append_drop]
  have hend : s.fileReadIndex + (s.remaining.take ioBufSize).length = h.size ↔
      s.remaining.drop ioBufSize = [] := by
    rw [← length_eq_zero_iff]
    omega
  rw [readData, hcur]
  dsimp only
  rw [if_neg (by rw [hdir]; exact Bool.false_ne_true), if_neg hbuf.not_gt, if_neg (by omega), afterRead]
  by_cases hdrop : s.remaining.drop ioBufSize = []
  · rw [if_pos (hend.mpr hdrop), if_pos hdrop]
  · rw [if_neg (fun heq => hdrop (hend.mp heq)), if_neg (fun hboth => hdrop hboth.1), if_neg hdrop, ← hcur]

/-- The state after the buffer has been written to the output tar. -/
def afterWrite (s : Streamer) (w : TarWriter) : Streamer :=
  { s with
    outputTar := some ⟨w.nb - s.inputBuf.length, w.pad⟩
    outputIo := s.outputIo ++ s.inputBuf.map .data
    bufReadIndex := s.inputBuf.length }

/-- The copy of the buffer in the tee tar. -/
def afterTee (s : Streamer) : Streamer :=
  { s with
    teeTar := ⟨s.teeTar.nb - s.inputBuf.length, s.teeTar.pad⟩
    teeIo := s.teeIo ++ s.inputBuf.map .data }

variable {w : TarWriter}

theorem writeData_empty (hbuf : s.inputBuf = []) (hindex : s.bufReadIndex = 0) (hw : s.outputTar = some w) :
    s.writeData = (s.afterWrite w, none) := by
  cases s
  subst hbuf hindex hw
  simp [writeData, afterWrite]

theorem writeData_plain (hindex : s.bufReadIndex = 0) (hw : s.outputTar = some w)
    (hnb : s.inputBuf.length ≤ w.nb) (htee : s.teeing = false) : s.writeData = (s.afterWrite w, none) := by
  by_cases hbuf : s.inputBuf = []
  · exact writeData_empty hbuf hindex hw
  · have hpos : 0 < s.inputBuf.length := length_pos_iff.mpr hbuf
    cases s
    subst hindex hw htee
    simp only [writeData, hpos, if_true, Nat.sub_zero, take_length, drop_zero,
      TarWriter.write_of_le hnb, Bool.false_eq_true, if_false, Nat.zero_add, afterWrite]

theorem writeData_tee (hindex : s.bufReadIndex = 0) (hw : s.outputTar = some w)
    (hnb : s.inputBuf.length ≤ w.nb) (htee : s.teeing = true) (hteeNb : s.inputBuf.length ≤ s.teeTar.nb) :
    s.writeData = ((s.afterWrite w).afterTee, none) := by
  by_cases hbuf : s.inputBuf = []
  · rw [writeData_empty hbuf hindex hw]
    simp [afterTee, afterWrite, hbuf]
  · have hpos : 0 < s.inputBuf.length := length_pos_iff.mpr hbuf
    cases s
    subst hindex hw htee
    simp only [writeData, hpos, if_true, Nat.sub_zero, take_length, drop_zero,
      TarWriter.write_of_le hnb, writeTee, TarWriter.write_of_le hteeNb, ne_eq, not_true_eq_false, if_false,
      Nat.zero_add, afterWrite, afterTee]

theorem writeData_tooLong (hbuf : s.inputBuf ≠ []) (hindex : s.bufReadIndex = 0)
    (hw : s.outputTar = some w) (hnb : s.inputBuf.length ≤ w.nb) (htee : s.teeing = true)
    (hteeNb : s.teeTar.nb = 0) : ∃ s', s.writeData = (s', some .writeTooLong) := by
  have hpos : 0 < s.inputBuf.length := length_pos_iff.mpr hbuf
  cases s
  subst hindex hw htee
  simp only [writeData, hpos, if_true, Nat.sub_zero, take_length, drop_zero,
    TarWriter.write_of_le hnb, writeTee, TarWriter.write_full hteeNb hbuf]
  exact ⟨_, rfl⟩

end Streamer

end WalG.Tarball
