import WalG.Foundation.PieceReader

/-! # The libsodium writer and reader

The writer collects its input into chunks of a fixed size and pushes each full one; closing pushes
what is left, with the final tag.
-/
namespace WalG.Crypto
open Foundation

def chunkSize : ℕ := 8192
def headerBytes : ℕ := 24
def aBytes : ℕ := 17

/-- The secretstream primitive of libsodium. Its header is drawn from a seed. The two sides go
in step from the header on: pulling a pushed chunk gives back the message and the tag. -/
structure SecretStream where
  Key : Type
  Seed : Type
  PushState : Type
  PullState : Type
  zeroPush : PushState
  zeroPull : PullState
  initPush : Key → Seed → PushState × Bytes
  /-- Encrypt one chunk; the flag is the final tag. -/
  push : PushState → Bytes → Bool → PushState × Bytes
  initPull : Bytes → Key → Option PullState
  pull : PullState → Bytes → Option (PullState × Bytes × Bool)
  InStep : PushState → PullState → Prop
  header_length : ∀ key seed, (initPush key seed).2.length = headerBytes
  push_length : ∀ state message final, (push state message final).2.length = message.length + aBytes
  initPull_inStep : ∀ key seed, ∃ pullState, initPull (initPush key seed).2 key = some pullState ∧
    InStep (initPush key seed).1 pullState
  pull_push : ∀ state pullState message final, InStep state pullState →
    ∃ pullState', pull pullState (push state message final).2 = some (pullState', message, final) ∧
      InStep (push state message final).1 pullState'

variable (S : SecretStream)

/-- The input buffer is never full between two calls. -/
structure Writer where
  output : Bytes
  state : S.PushState
  input : Bytes
  input_lt : input.length < chunkSize
  headerWritten : Bool
  key : S.Key
  seed : S.Seed

variable {S}

def newWriter (key : S.Key) (seed : S.Seed) : Writer S := ⟨[], S.zeroPush, [], by decide, false, key, seed⟩

namespace Writer

variable (w : Writer S)

/-- The header is written before the first chunk, by the first call of `Write`. -/
def writeHeader : Writer S :=
  if w.headerWritten then w
  else
    { w with
      output := w.output ++ (S.initPush w.key w.seed).2
      state := (S.initPush w.key w.seed).1
      headerWritten := true }

/-- Push `chunk`, which is what the input buffer holds, and empty the buffer. -/
def writeNextChunk (chunk : Bytes) (last : Bool) : Writer S :=
  { w with
    output := w.output ++ (S.push w.state chunk last).2
    state := (S.push w.state chunk last).1
    input := []
    input_lt := by decide }

/-- Copy as much as fits into the buffer, push the buffer when it is full, and go on. -/
def writeLoop (w : Writer S) (p : Bytes) : Writer S :=
  if _hp : p = [] then w
  else if hfull : chunkSize ≤ w.input.length + p.length then
    writeLoop (w.writeNextChunk (w.input ++ p.take (chunkSize - w.input.length)) false)
      (p.drop (chunkSize - w.input.length))
  else { w with input := w.input ++ p, input_lt := by rw [List.length_append]; omega }
termination_by p.length
decreasing_by
  have := w.input_lt
  rw [List.length_drop]
  omega

def write (p : Bytes) : Writer S := w.writeHeader.writeLoop p

def close : Writer S := w.writeNextChunk w.input true

end Writer

inductive CryptError where
  | eof
  | header
  | corruptedHeader
  | corruptedChunk
  | prematureEnd
  /-- The address of the first byte of an empty buffer. -/
  | panic
  deriving DecidableEq, Repr

variable (S) in
structure Reader where
  source : PieceReader
  state : S.PullState
  /-- The length of the input buffer, which shrinks to what the last read filled. -/
  inputSize : ℕ
  /-- The decrypted bytes not yet delivered. -/
  pending : Bytes
  headerRead : Bool
  headerErr : Option CryptError
  key : S.Key

def newReader (source : PieceReader) (key : S.Key) : Reader S :=
  ⟨source, S.zeroPull, chunkSize + aBytes, [], false, none, key⟩

namespace Reader

variable (r : Reader S)

def readHeader : Reader S :=
  if r.headerRead then r
  else
    match r.source.readFull headerBytes with
    | (_, some _, source) => { r with source := source, headerRead := true, headerErr := some .header }
    | (header, none, source) =>
      match S.initPull header r.key with
      | none => { r with source := source, headerRead := true, headerErr := some .corruptedHeader }
      | some state => { r with source := source, state := state, headerRead := true }

/-- What pulling `chunk` makes of the read. The final tag is an error on a chunk that fills the buffer;
a short chunk is accepted with either tag. -/
def pullChunk (chunk : Bytes) (short : Bool) : Option CryptError × Reader S :=
  match S.pull r.state chunk with
  | none => (some .corruptedChunk, { r with pending := [] })
  | some (state, message, final) =>
    (if final && !short then some .prematureEnd else none, { r with state := state, pending := message })

def readNextChunk : Option CryptError × Reader S :=
  match r.source.readFull r.inputSize with
  | (_, some .eof, source) => (some .eof, { r with source := source, inputSize := 0 })
  | (chunk, err, source) =>
    if chunk = [] then (some .panic, r)
    else { r with source := source, inputSize := chunk.length }.pullChunk chunk err.isSome

/-- One call of `Read` with a buffer of `k` bytes. -/
def read (k : ℕ) : Bytes × Option CryptError × Reader S :=
  let r := r.readHeader
  match r.headerErr with
  | some e => ([], some e, r)
  | none =>
    if r.pending = [] then
      match r.readNextChunk with
      | (some e, r) => ([], some e, r)
      | (none, r) => (r.pending.take k, none, { r with pending := r.pending.drop k })
    else (r.pending.take k, none, { r with pending := r.pending.drop k })

/-- Up to `n` calls with buffers of the given sizes, until one reports an error. -/
def readMany (r : Reader S) (sizes : ℕ → ℕ) : ℕ → Bytes × Option CryptError × Reader S
  | 0 => ([], none, r)
  | n + 1 =>
    match r.read (sizes 0) with
    | (bytes, some e, r) => (bytes, some e, r)
    | (bytes, none, r) =>
      let rest := readMany r (fun i => sizes (i + 1)) n
      (bytes ++ rest.1, rest.2)

end Reader

end WalG.Crypto
