import WalG.Tarball.Archive

/-! # Streaming a base backup

The streamer is read like a file.
-/
namespace WalG.Tarball
open Foundation

/-- A regular file with its data, or a directory. -/
structure Entry where
  name : Text
  isDir : Bool
  modTime : ℤ
  data : Bytes
  dir_empty : isDir = true → data = []

def Entry.header (e : Entry) : Header := ⟨e.name, e.isDir, e.data.length, e.modTime⟩

structure Config where
  maxTarSize : ℕ
  tee : List Text
  remaps : List (Text → Text)

def ioBufSize : ℕ := 33554432

structure Streamer where
  /-- What the input tar still holds, and the unread data of its current entry. -/
  input : List Entry
  remaining : Bytes
  inputEnded : Bool
  tarFileReadIndex : ℕ
  curHeader : Option Header
  fileReadIndex : ℕ
  inputBuf : Bytes
  bufReadIndex : ℕ
  outputTar : Option TarWriter
  outputIo : List Cell
  teeTar : TarWriter
  teeIo : List Cell
  teeing : Bool
  files : List (Text × ℤ)

def newTarballStreamer (input : List Entry) : Streamer :=
  ⟨input, [], false, 0, none, 0, [], 0, none, [], .new, [], false, []⟩

def Config.remap (c : Config) (h : Header) : Header :=
  { h with name := c.remaps.foldl (fun name remap => remap name) h.name }

/-- The name under which a file is listed. -/
def filePath (h : Header) : Text := trimPrefix h.name "./".toList

namespace Streamer

variable (c : Config) (s : Streamer)

def writeOutputHeader (h : Header) : Streamer × Option StreamError :=
  match s.outputTar with
  | none => (s, some .nilPointer)
  | some w =>
    match w.writeHeader h with
    | .error e => (s, some e)
    | .ok (w, cells) => ({ s with outputTar := some w, outputIo := s.outputIo ++ cells }, none)

def writeTeeHeader (h : Header) : Streamer × Option StreamError :=
  match s.teeTar.writeHeader h with
  | .error e => (s, some e)
  | .ok (w, cells) => ({ s with teeTar := w, teeIo := s.teeIo ++ cells }, none)

def listFile (h : Header) : Streamer :=
  if h.isDir then s
  else
    { s with
      files := (filePath h, h.modTime) :: s.files.filter (·.1 ≠ filePath h)
      tarFileReadIndex := s.tarFileReadIndex + h.size }

def addFile (h : Header) : Streamer × Option StreamError :=
  match s.writeOutputHeader h with
  | (s, some e) => (s, some e)
  | (s, none) =>
    if h.name ∈ c.tee then
      match { s with teeing := true }.writeTeeHeader h with
      | (s, some e) => (s, some e)
      | (s, none) => (s.listFile h, none)
    else ({ s with teeing := false }.listFile h, none)

/-- The first output tar, or the next one; a header that is set was not written yet. -/
def openOutput : Streamer × Option StreamError :=
  match s.outputTar with
  | some _ => (s, none)
  | none =>
    let s := { s with outputTar := some .new, tarFileReadIndex := 0 }
    match s.curHeader with
    | none => (s, none)
    | some h => s.writeOutputHeader h

def nextInputFile : Streamer × Option StreamError :=
  match s.openOutput with
  | (s, some e) => (s, some e)
  | (s, none) =>
    match s.curHeader with
    | some _ => (s, some .headerAlreadySet)
    | none =>
      match s.input with
      | [] => ({ s with inputEnded := true }, some .eof)
      | e :: input =>
        let h := c.remap e.header
        let s := { s with input := input, remaining := e.data, curHeader := some h, fileReadIndex := 0 }
        if s.tarFileReadIndex = 0 ∧ c.maxTarSize ≤ h.size then s.addFile c h
        else if c.maxTarSize ≤ s.tarFileReadIndex + h.size then (s, some .outputEOF)
        else s.addFile c h

/-- Reading from the input tar reports its end with the last data. -/
def readData : Streamer × Option StreamError :=
  match s.curHeader with
  | none => (s, some .nilPointer)
  | some h =>
    if h.isDir then ({ s with curHeader := none }, some .inputIsDir)
    else if s.bufReadIndex < s.inputBuf.length then (s, none)
    else
      let buf := s.remaining.take ioBufSize
      let s := { s with
        remaining := s.remaining.drop ioBufSize
        inputBuf := buf
        bufReadIndex := 0
        fileReadIndex := s.fileReadIndex + buf.length }
      if h.size < s.fileReadIndex then (s, some .writeTooLong)
      else if s.fileReadIndex = h.size then ({ s with curHeader := none }, none)
      else if s.remaining = [] ∧ buf = [] then (s, some .eof)
      else (s, none)

def readFileData : Streamer × Option StreamError :=
  match s.nextInputFile c with
  | (s, none) => s.readData
  | (s, some .headerAlreadySet) => s.readData
  | (s, some e) => (s, some e)

def writeTee (b : Bytes) : Streamer × Option StreamError :=
  match s.teeTar.write b with
  | (w, cells, n, err) =>
    let s := { s with teeTar := w, teeIo := s.teeIo ++ cells }
    match err with
    | some e => (s, some e)
    | none => if n ≠ b.length then (s, some .teeIncomplete) else (s, none)

/-- The data read last go to the output tar, and to the tee tar if the file is copied. -/
def writeData : Streamer × Option StreamError :=
  if s.bufReadIndex < s.inputBuf.length then
    match s.outputTar with
    | none => (s, some .nilPointer)
    | some w =>
      match w.write ((s.inputBuf.take (s.inputBuf.length - s.bufReadIndex)).drop s.bufReadIndex) with
      | (w, cells, nTar, err) =>
        let s := { s with outputTar := some w, outputIo := s.outputIo ++ cells }
        match err with
        | some e => (s, some e)
        | none =>
          if s.teeing then
            match s.writeTee ((s.inputBuf.drop s.bufReadIndex).take nTar) with
            | (s, some e) => (s, some e)
            | (s, none) => ({ s with bufReadIndex := s.bufReadIndex + nTar }, none)
          else ({ s with bufReadIndex := s.bufReadIndex + nTar }, none)
  else (s, none)

def pipeFileData : Streamer × Option StreamError :=
  if s.outputIo ≠ [] then (s, none)
  else
    match s.readFileData c with
    | (s, none) => s.writeData
    | (s, some .headerAlreadySet) => s.writeData
    | (s, some e) => (s, some e)

/-- The end of an output tar; what does not fit into the caller's buffer is dropped. -/
def finishTar (n : ℕ) : Streamer × List Cell × Option StreamError :=
  match s.outputTar with
  | none => (s, [], some .nilPointer)
  | some w =>
    match w.close with
    | .error e => (s, [], some e)
    | .ok cells =>
      ({ s with outputTar := none, outputIo := [], tarFileReadIndex := 0 }, (s.outputIo ++ cells).take n, some .eof)

def readOutput (n : ℕ) : Streamer × List Cell × Option StreamError :=
  if s.outputIo ≠ [] then ({ s with outputIo := s.outputIo.drop n }, s.outputIo.take n, none)
  else if n = 0 then (s, [], none)
  else
    match s.curHeader with
    | none => (s, [], some .nilPointer)
    | some h =>
      if s.fileReadIndex < h.size then
        match s.pipeFileData c with
        | (s, some e) => (s, [], some e)
        | (s, none) =>
          if s.outputIo = [] then (s, [], some .eof)
          else ({ s with outputIo := s.outputIo.drop n }, s.outputIo.take n, some .outputEOF)
      else (s, [], some .eof)

/-- A read into a buffer of `n` bytes. -/
def read (n : ℕ) : Streamer × List Cell × Option StreamError :=
  match s.pipeFileData c with
  | (s, none) => s.readOutput c n
  | (s, some .inputIsDir) => s.readOutput c n
  | (s, some .outputEOF) => s.finishTar n
  | (s, some e) => (s, [], some e)

end Streamer

inductive Status where
  | reading
  | ended
  | failed (e : StreamError)
  deriving DecidableEq

/-- The tars uploaded so far and the one being read. -/
structure Transcript where
  streamer : Streamer
  tars : List (List Cell)
  current : List Cell
  status : Status

/-- One read of the upload, which takes the next tar until the input has ended. -/
def Transcript.readNext (c : Config) (t : Transcript) (n : ℕ) : Transcript :=
  match t.status with
  | .reading =>
    match t.streamer.read c n with
    | (s, cells, none) => ⟨s, t.tars, t.current ++ cells, .reading⟩
    | (s, cells, some .eof) =>
      ⟨s, t.tars ++ [t.current ++ cells], [], if s.inputEnded then .ended else .reading⟩
    | (s, cells, some e) => ⟨s, t.tars, t.current ++ cells, .failed e⟩
  | _ => t

/-- The upload with a sequence of buffer sizes. -/
def upload (c : Config) (entries : List Entry) (sizes : List ℕ) : Transcript :=
  sizes.foldl (Transcript.readNext c) ⟨newTarballStreamer entries, [], [], .reading⟩

end WalG.Tarball
