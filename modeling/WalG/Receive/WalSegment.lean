import WalG.Foundation.Bytes
import WalG.Foundation.Slices

/-! # The receiving WAL segment

A segment under construction takes replication messages until it is full.
-/
namespace WalG.Receive
open Foundation List

/-- The messages of a replication stream, with the parsed payload of `CopyData`. -/
inductive BackendMessage where
  | primaryKeepalive (replyRequested : Bool)
  | xLogData (walStart : ℕ) (walData : Bytes)
  | unknownCopyData
  | copyDone
  | unexpected
  deriving DecidableEq, Repr

inductive ProcessMessageResult where
  | ok
  | unknown
  | copyDone
  | replyRequested
  | segmentGap
  | mismatch
  deriving DecidableEq, Repr

/-- The texts of the segment errors, one constructor each. -/
inductive SegmentError where
  | startedAfterEnd
  | endedBeforeStart
  | doesNotFitWriteIndex
  | unexpectedMessage
  | notComplete
  | unexpectedResult
  deriving DecidableEq, Repr

structure WalSegment where
  timeLine : ℕ
  startLSN : ℕ
  endLSN : ℕ
  walSegmentBytes : ℕ
  data : Bytes
  writeIndex : ℕ
  lastMsg : Option BackendMessage
  deriving DecidableEq, Repr

def newWalSegment (timeline location walSegmentBytes : ℕ) : WalSegment :=
  let startLSN := location / walSegmentBytes * walSegmentBytes
  { timeLine := timeline
    startLSN := startLSN
    endLSN := (startLSN + walSegmentBytes) % 2 ^ 64
    walSegmentBytes := walSegmentBytes
    data := replicate walSegmentBytes 0
    writeIndex := 0
    lastMsg := none }

namespace WalSegment

def isComplete (seg : WalSegment) : Bool :=
  decide (seg.endLSN ≤ (seg.startLSN + seg.writeIndex) % 2 ^ 64)

/-- How much of a message lies before the segment. -/
def messageOffset (seg : WalSegment) (walStart : ℕ) : ℕ :=
  if walStart < seg.startLSN then seg.startLSN - walStart else 0

/-- Store the part of a message that falls into the segment. -/
def accept (seg : WalSegment) (walStart : ℕ) (walData : Bytes) : WalSegment :=
  let piece := walData.drop (seg.messageOffset walStart)
  let copiedBytes := min (seg.data.length - seg.writeIndex) piece.length
  { seg with
    data := copyAt seg.data seg.writeIndex piece
    writeIndex := seg.writeIndex + copiedBytes
    lastMsg := if copiedBytes < piece.length then some (.xLogData walStart walData) else seg.lastMsg }

def processMessage (seg : WalSegment) :
    BackendMessage → (ProcessMessageResult × Option SegmentError) × WalSegment
  | .primaryKeepalive replyRequested =>
    if replyRequested then ((.replyRequested, none), seg) else ((.ok, none), seg)
  | .xLogData walStart walData =>
    if seg.endLSN < walStart then ((.mismatch, some .startedAfterEnd), seg)
    else if (walStart + walData.length) % 2 ^ 64 < seg.startLSN then
      ((.mismatch, some .endedBeforeStart), seg)
    else if (seg.startLSN + seg.writeIndex) % 2 ^ 64 ≠ (walStart + seg.messageOffset walStart) % 2 ^ 64 then
      ((.segmentGap, some .doesNotFitWriteIndex), seg)
    else ((.ok, none), seg.accept walStart walData)
  | .unknownCopyData => ((.ok, none), seg)
  | .copyDone => ((.copyDone, none), seg)
  | .unexpected => ((.unknown, some .unexpectedMessage), seg)

/-- The segment after a full one, with the rest of a message that crosses into it. -/
def nextWalSegment (seg : WalSegment) : Except SegmentError WalSegment :=
  if seg.isComplete then
    let nextSegment := newWalSegment seg.timeLine seg.endLSN seg.walSegmentBytes
    match seg.lastMsg with
    | none => .ok nextSegment
    | some msg =>
      match nextSegment.processMessage msg with
      | ((_, some err), _) => .error err
      | ((.ok, none), next) => .ok next
      | ((_, none), _) => .error .unexpectedResult
  else .error .notComplete

end WalSegment

/-- Feed messages to the segment and pass on to the next one whenever it is complete.
The result is the completed segments and the open one. -/
def receive (seg : WalSegment) : List BackendMessage → Except SegmentError (List WalSegment × WalSegment)
  | [] => .ok ([], seg)
  | msg :: msgs =>
    match seg.processMessage msg with
    | ((_, some err), _) => .error err
    | ((_, none), seg') =>
      if seg'.isComplete then
        match seg'.nextWalSegment with
        | .error err => .error err
        | .ok next => (receive next msgs).map fun r => (seg' :: r.1, r.2)
      else receive seg' msgs

end WalG.Receive
