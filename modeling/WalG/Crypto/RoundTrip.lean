import WalG.Crypto.SecretStream
import WalG.Foundation.Slices

/-! # What is encrypted is read back

However the input is cut into writes, the writer pushes its slices of the chunk size and closes with
the shorter rest.
-/
namespace WalG.Crypto
open Foundation List

variable {S : SecretStream}

section Writing

/-- Push chunks without the final tag, one after the other. -/
def pushAll (state : S.PushState) : List Bytes → S.PushState × Bytes
  | [] => (state, [])
  | chunk :: chunks =>
    let pushed := S.push state chunk false
    let rest := pushAll pushed.1 chunks
    (rest.1, pushed.2 ++ rest.2)

theorem pushAll_append (state : S.PushState) (a b : List Bytes) :
    pushAll state (a ++ b) =
      ((pushAll (pushAll state a).1 b).1, (pushAll state a).2 ++ (pushAll (pushAll state a).1 b).2) := by
  induction a generalizing state with
  | nil => rfl
  | cons chunk a ih => simp only [cons_append, pushAll, ih, append_assoc]

/-- The whole stream behind the header. -/
def sealed (state : S.PushState) (chunks : List Bytes) (last : Bytes) : Bytes :=
  (pushAll state chunks).2 ++ (S.push (pushAll state chunks).1 last true).2

theorem sealed_cons (state : S.PushState) (chunk : Bytes) (chunks : List Bytes) (last : Bytes) :
    sealed state (chunk :: chunks) last =
      (S.push state chunk false).2 ++ sealed (S.push state chunk false).1 chunks last := by
  simp only [sealed, pushAll, append_assoc]

theorem chunkSize_pos : 0 < chunkSize := by decide

namespace Writer

theorem writeLoop_spec (w : Writer S) (p : Bytes) :
    (w.writeLoop p).output = w.output ++ (pushAll w.state (slices chunkSize (w.input ++ p))).2 ∧
      (w.writeLoop p).state = (pushAll w.state (slices chunkSize (w.input ++ p))).1 ∧
      (w.writeLoop p).input = sliceRest chunkSize (w.input ++ p) ∧
      (w.writeLoop p).headerWritten = w.headerWritten := by
  induction hn : p.length using Nat.strong_induction_on generalizing w p with
  | _ n ih =>
    have hlt := w.input_lt
    rw [writeLoop]
    by_cases hp : p = []
    · rw [dif_pos hp, hp, append_nil, slices_of_short hlt, sliceRest_of_short hlt]
      exact ⟨(append_nil _).symm, rfl, rfl, rfl⟩
    rw [dif_neg hp]
    by_cases hfull : chunkSize ≤ w.input.length + p.length
    · rw [dif_pos hfull]
      have hchunk : (w.input ++ p.take (chunkSize - w.input.length)).length = chunkSize := by
        rw [length_append, length_take]
        omega
      have hsplit : w.input ++ p = w.input ++ p.take (chunkSize - w.input.length) ++
          p.drop (chunkSize - w.input.length) := by
        rw [append_assoc, take_append_drop]
      obtain ⟨houtput, hstate, hinput, hheader⟩ := ih _ (by rw [← hn, length_drop]; omega)
        (w.writeNextChunk (w.input ++ p.take (chunkSize - w.input.length)) false)
        (p.drop (chunkSize - w.input.length)) rfl
      rw [houtput, hstate, hinput, hheader, hsplit, slices_append hchunk chunkSize_pos,
        sliceRest_append hchunk chunkSize_pos]
      simp only [writeNextChunk, pushAll, nil_append, append_assoc, and_self]
    · rw [dif_neg hfull]
      have hshort : (w.input ++ p).length < chunkSize := by
        rw [length_append]
        omega
      rw [slices_of_short hshort, sliceRest_of_short hshort]
      exact ⟨(append_nil _).symm, rfl, rfl, rfl⟩

/-- The writer has taken `data` in, in whatever pieces. -/
structure Took (w : Writer S) (key : S.Key) (seed : S.Seed) (data : Bytes) : Prop where
  headerWritten : w.headerWritten = true
  output : w.output = (S.initPush key seed).2 ++ (pushAll (S.initPush key seed).1 (slices chunkSize data)).2
  state : w.state = (pushAll (S.initPush key seed).1 (slices chunkSize data)).1
  input : w.input = sliceRest chunkSize data

variable {key : S.Key} {seed : S.Seed}

theorem write_first (p : Bytes) : ((newWriter key seed).write p).Took key seed p := by
  obtain ⟨houtput, hstate, hinput, hheader⟩ := writeLoop_spec (newWriter key seed).writeHeader p
  exact ⟨hheader, houtput, hstate, hinput⟩

theorem Took.write {w : Writer S} {data : Bytes} (h : w.Took key seed data) (p : Bytes) :
    (w.write p).Took key seed (data ++ p) := by
  obtain ⟨houtput, hstate, hinput, hheader⟩ := writeLoop_spec w p
  obtain ⟨hslices, hrest⟩ := slices_append_rest chunkSize_pos data p
  have hwrite : w.write p = w.writeLoop p := by rw [Writer.write, writeHeader, if_pos h.headerWritten]
  rw [h.input] at houtput hstate hinput
  rw [hwrite]
  refine ⟨hheader.trans h.headerWritten, ?_, ?_, ?_⟩
  · rw [houtput, h.output, h.state, hslices, pushAll_append, append_assoc]
  · rw [hstate, h.state, hslices, pushAll_append]
  · rw [hinput, hrest]

theorem Took.foldl {w : Writer S} {data : Bytes} (h : w.Took key seed data) (writes : List Bytes) :
    (writes.foldl Writer.write w).Took key seed (data ++ writes.flatten) := by
  induction writes generalizing w data with
  | nil => rwa [flatten_nil, append_nil]
  | cons p writes ih =>
    rw [flatten_cons, ← append_assoc]
    exact ih (h.write p)

theorem close_output {writes : List Bytes} (hwrites : writes ≠ []) :
    (writes.foldl Writer.write (newWriter key seed)).close.output = (S.initPush key seed).2 ++
      sealed (S.initPush key seed).1 (slices chunkSize writes.flatten) (sliceRest chunkSize writes.flatten) := by
  cases writes with
  | nil => exact absurd rfl hwrites
  | cons p writes =>
    have h := (@write_first S key seed p).foldl writes
    rw [← flatten_cons] at h
    rw [close, writeNextChunk]
    dsimp only [foldl_cons]
    rw [h.output, h.state, h.input, sealed, append_assoc]

end Writer

end Writing

section Reading

namespace Reader

variable {r r' : Reader S} {data : Bytes} {state : S.PushState} {chunks : List Bytes} {last : Bytes}

/-- The header is read and good. -/
def Opened (r : Reader S) : Prop := r.headerRead = true ∧ r.headerErr = none

/-- The source still holds the given chunks, and the two sides are in step. -/
structure Holds (r : Reader S) (state : S.PushState) (chunks : List Bytes) (last : Bytes) : Prop where
  source : r.source.content = sealed state chunks last
  inStep : S.InStep state r.state
  inputSize : r.inputSize = chunkSize + aBytes
  chunk_length : ∀ chunk ∈ chunks, chunk.length = chunkSize
  last_lt : last.length < chunkSize

/-- The last chunk is read: nothing is left in the source. -/
structure Drained (r : Reader S) : Prop where
  source : r.source.content = []
  inputSize : 0 < r.inputSize

theorem pullChunk_push (r : Reader S) (h : S.InStep state r.state) (message : Bytes)
    (final short : Bool) (hshort : final = true → short = true) :
    ∃ pullState, r.pullChunk (S.push state message final).2 short =
        (none, { r with state := pullState, pending := message }) ∧
          S.InStep (S.push state message final).1 pullState := by
  obtain ⟨pullState, hpull, hstep⟩ := S.pull_push state r.state message final h
  refine ⟨pullState, ?_, hstep⟩
  simp only [pullChunk, hpull]
  rw [if_neg]
  cases final with
  | false => simp
  | true => simp [hshort rfl]

theorem push_ne_nil (state : S.PushState) (message : Bytes) (final : Bool) : (S.push state message final).2 ≠ [] := by
  rw [← length_pos_iff, S.push_length]
  exact Nat.add_pos_right _ (by decide)

/-- A chunk that fills the buffer is decrypted, whatever comes behind it. -/
theorem readNextChunk_push {chunk rest : Bytes} (hopen : r.Opened)
    (hstep : S.InStep state r.state) (hsize : r.inputSize = chunkSize + aBytes) (hchunk : chunk.length = chunkSize)
    (hcontent : r.source.content = (S.push state chunk false).2 ++ rest) :
    ∃ r', r.readNextChunk = (none, r') ∧ r'.pending = chunk ∧ r'.Opened ∧ r'.source.content = rest ∧
      S.InStep (S.push state chunk false).1 r'.state ∧ r'.inputSize = chunkSize + aBytes := by
  have hlen : (S.push state chunk false).2.length = r.inputSize := by rw [S.push_length, hchunk, hsize]
  have hle : r.inputSize ≤ r.source.content.length := by
    rw [hcontent, length_append, hlen]
    exact Nat.le_add_right _ _
  obtain ⟨source, hread, hrest⟩ := PieceReader.readFull_of_le hle
  rw [hcontent, take_left' hlen] at hread
  rw [hcontent, drop_left' hlen] at hrest
  obtain ⟨pullState, hpull, hstep'⟩ := pullChunk_push
    { r with source := source, inputSize := (S.push state chunk false).2.length } hstep chunk false false id
  refine ⟨{ r with
      source := source, inputSize := (S.push state chunk false).2.length, state := pullState, pending := chunk }, ?_,
    rfl, hopen, hrest, hstep', hlen.trans hsize⟩
  simp only [readNextChunk, hread, if_neg (push_ne_nil state chunk false)]
  exact hpull

theorem readNextChunk_cons {chunk : Bytes} (h : r.Holds state (chunk :: chunks) last) (hopen : r.Opened) :
    ∃ r', r.readNextChunk = (none, r') ∧ r'.pending = chunk ∧ r'.Opened ∧
      r'.Holds (S.push state chunk false).1 chunks last := by
  obtain ⟨r', hnext, hpending, hopen', hrest, hstep, hsize⟩ := readNextChunk_push hopen h.inStep h.inputSize
    (h.chunk_length chunk mem_cons_self) (h.source.trans (sealed_cons ..))
  exact ⟨r', hnext, hpending, hopen', hrest, hstep, hsize, fun c hc => h.chunk_length c (mem_cons_of_mem _ hc),
    h.last_lt⟩

theorem readNextChunk_last (h : r.Holds state [] last)
    (hopen : r.Opened) : ∃ r', r.readNextChunk = (none, r') ∧ r'.pending = last ∧ r'.Opened ∧ r'.Drained := by
  have hcontent : r.source.content = (S.push state last true).2 := h.source
  have hlen := S.push_length state last true
  have hlt : r.source.content.length < r.inputSize := by
    rw [hcontent, hlen, h.inputSize]
    exact Nat.add_lt_add_right h.last_lt _
  obtain ⟨source, hread, hrest⟩ := PieceReader.readFull_of_lt hlt
  rw [hcontent, if_neg (push_ne_nil state last true)] at hread
  obtain ⟨pullState, hpull, -⟩ := pullChunk_push
    { r with source := source, inputSize := (S.push state last true).2.length } h.inStep last true true id
  refine ⟨{ r with
      source := source, inputSize := (S.push state last true).2.length, state := pullState, pending := last }, ?_,
    rfl, hopen, ⟨hrest, length_pos_iff.mpr (push_ne_nil state last true)⟩⟩
  simp only [readNextChunk, hread, if_neg (push_ne_nil state last true)]
  exact hpull

theorem readNextChunk_drained (h : r.Drained) :
    ∃ r', r.readNextChunk = (some .eof, r') ∧ (r.Opened → r'.Opened) ∧ r'.pending = r.pending ∧ r'.inputSize = 0 := by
  have hlt : r.source.content.length < r.inputSize := by
    rw [h.source]
    exact h.inputSize
  obtain ⟨source, hread, -⟩ := PieceReader.readFull_of_lt hlt
  rw [h.source, if_pos rfl] at hread
  exact ⟨{ r with source := source, inputSize := 0 }, by simp only [readNextChunk, hread], id, rfl, rfl⟩

theorem readHeader_opened (h : r.Opened) : r.readHeader = r := by
  rw [readHeader, if_pos h.1]

theorem read_pending (h : r.Opened) (hpending : r.pending ≠ []) (k : ℕ) :
    r.read k = (r.pending.take k, none, { r with pending := r.pending.drop k }) := by
  simp only [read, readHeader_opened h, h.2, if_neg hpending]

theorem read_chunk (h : r.Opened) (hpending : r.pending = []) (hnext : r.readNextChunk = (none, r'))
    (k : ℕ) : r.read k = (r'.pending.take k, none, { r' with pending := r'.pending.drop k }) := by
  simp only [read, readHeader_opened h, h.2, if_pos hpending, hnext]

theorem read_error {e : CryptError} (h : r.Opened) (hpending : r.pending = [])
    (hnext : r.readNextChunk = (some e, r')) (k : ℕ) : r.read k = ([], some e, r') := by
  simp only [read, readHeader_opened h, h.2, if_pos hpending, hnext]

/-- With any non-empty buffers the reader delivers `data` and then reports the end. -/
def Delivers (r : Reader S) (data : Bytes) : Prop :=
  ∀ sizes : ℕ → ℕ, (∀ i, 0 < sizes i) → ∃ n r', r.readMany sizes n = (data, some .eof, r')

theorem Delivers.of_read
    (h : ∀ k, 0 < k → ∃ bytes rest r', r.read k = (bytes, none, r') ∧ data = bytes ++ rest ∧ r'.Delivers rest) :
    r.Delivers data := by
  intro sizes hsizes
  obtain ⟨bytes, rest, r₁, hread, rfl, hrest⟩ := h (sizes 0) (hsizes 0)
  obtain ⟨n, r', hmany⟩ := hrest (fun i => sizes (i + 1)) fun i => hsizes (i + 1)
  exact ⟨n + 1, r', by simp only [readMany, hread, hmany]⟩

theorem Delivers.pending (h : r.Opened) {data : Bytes}
    (hdata : { r with pending := [] }.Delivers data) : r.Delivers (r.pending ++ data) := by
  induction hn : r.pending.length using Nat.strong_induction_on generalizing r with
  | _ n ih =>
    by_cases hpending : r.pending = []
    · have hr : { r with pending := [] } = r := by rw [← hpending]
      rwa [hpending, nil_append, ← hr]
    · apply Delivers.of_read
      intro k hk
      have hpos := length_pos_iff.mpr hpending
      refine ⟨_, r.pending.drop k ++ data, _, read_pending h hpending k, ?_, ?_⟩
      · rw [← append_assoc, take_append_drop]
      · exact ih _ (by rw [← hn, length_drop]; omega) h hdata rfl

theorem Drained.delivers (h : r.Drained) (hopen : r.Opened) : r.Delivers r.pending := by
  rw [← append_nil r.pending]
  apply Delivers.pending hopen
  intro sizes _
  obtain ⟨r', hnext, -⟩ := @readNextChunk_drained S { r with pending := [] } ⟨h.source, h.inputSize⟩
  exact ⟨1, r', by simp only [readMany, read_error (r := { r with pending := [] }) hopen rfl hnext]⟩

theorem Delivers.chunk (h : r.Opened) (hpending : r.pending = []) (h' : r'.Opened)
    (hnext : r.readNextChunk = (none, r')) (hdata : { r' with pending := [] }.Delivers data) :
    r.Delivers (r'.pending ++ data) := by
  apply Delivers.of_read
  intro k hk
  refine ⟨_, r'.pending.drop k ++ data, _, read_chunk h hpending hnext k, ?_, ?_⟩
  · rw [← append_assoc, take_append_drop]
  · exact @Delivers.pending S { r' with pending := r'.pending.drop k } h' data hdata

theorem Holds.delivers (h : r.Holds state chunks last) (hopen : r.Opened) (hpending : r.pending = []) :
    r.Delivers (chunks.flatten ++ last) := by
  induction chunks generalizing r state with
  | nil =>
    obtain ⟨r', hnext, rfl, hopen', hdrained⟩ := readNextChunk_last h hopen
    have hdata := Delivers.chunk hopen hpending hopen' hnext
      (@Drained.delivers S { r' with pending := [] } ⟨hdrained.source, hdrained.inputSize⟩ hopen')
    rwa [append_nil] at hdata
  | cons chunk chunks ih =>
    obtain ⟨r', hnext, rfl, hopen', hholds⟩ := readNextChunk_cons h hopen
    rw [flatten_cons, append_assoc]
    exact Delivers.chunk hopen hpending hopen' hnext (ih (r := { r' with pending := [] })
      ⟨hholds.source, hholds.inStep, hholds.inputSize, hholds.chunk_length, hholds.last_lt⟩ hopen' rfl)

theorem Delivers.of_readHeader (h : r.readHeader.Opened) (hdata : r.readHeader.Delivers data) : r.Delivers data := by
  intro sizes hsizes
  obtain ⟨n, r', hmany⟩ := hdata sizes hsizes
  have hread : ∀ k, r.readHeader.read k = r.read k := fun k => by simp only [read, readHeader_opened h]
  cases n with
  | zero => simp [readMany] at hmany
  | succ n => exact ⟨n + 1, r', by rw [← hmany]; simp only [readMany, hread]⟩

theorem readHeader_opens {source : PieceReader} {key : S.Key} {seed : S.Seed} {rest : Bytes}
    (hsource : source.content = (S.initPush key seed).2 ++ rest) :
    (newReader source key).readHeader.Opened ∧ (newReader source key).readHeader.pending = [] ∧
      (newReader source key).readHeader.source.content = rest ∧
      S.InStep (S.initPush key seed).1 (newReader source key).readHeader.state ∧
      (newReader source key).readHeader.inputSize = chunkSize + aBytes := by
  have hlen := S.header_length key seed
  have hle : headerBytes ≤ source.content.length := by
    rw [hsource, length_append, hlen]
    exact Nat.le_add_right _ _
  obtain ⟨source', hread, hrest⟩ := PieceReader.readFull_of_le hle
  obtain ⟨pullState, hpull, hstep⟩ := S.initPull_inStep key seed
  rw [hsource, take_left' hlen] at hread
  rw [hsource, drop_left' hlen] at hrest
  have hheader : (newReader source key).readHeader =
      ⟨source', pullState, chunkSize + aBytes, [], true, none, key⟩ := by
    simp [newReader, readHeader, hread, hpull]
  rw [hheader]
  exact ⟨⟨rfl, rfl⟩, rfl, hrest, hstep, rfl⟩

theorem readHeader_newReader {source : PieceReader} {key : S.Key} {seed : S.Seed}
    (hsource : source.content = (S.initPush key seed).2 ++ sealed (S.initPush key seed).1 chunks last)
    (hchunks : ∀ chunk ∈ chunks, chunk.length = chunkSize) (hlast : last.length < chunkSize) :
    (newReader source key).readHeader.Opened ∧ (newReader source key).readHeader.pending = [] ∧
      (newReader source key).readHeader.Holds (S.initPush key seed).1 chunks last := by
  obtain ⟨hopen, hpending, hrest, hstep, hsize⟩ := readHeader_opens hsource
  exact ⟨hopen, hpending, hrest, hstep, hsize, hchunks, hlast⟩

end Reader

/-- Encryption round-trips: however the input is cut into writes, the ciphertext is delivered in pieces
and the buffers are sized, the reader returns the input and then the end of the file. -/
theorem readMany_close (S : SecretStream) (key : S.Key) (seed : S.Seed) (writes : List Bytes) (hwrites : writes ≠ [])
    (source : PieceReader) (hsource : source.content = (writes.foldl Writer.write (newWriter key seed)).close.output)
    (sizes : ℕ → ℕ) (hsizes : ∀ i, 0 < sizes i) :
    ∃ n r, (newReader source key).readMany sizes n = (writes.flatten, some .eof, r) := by
  rw [Writer.close_output hwrites] at hsource
  have hlast : (sliceRest chunkSize writes.flatten).length < chunkSize := by
    rw [sliceRest_length]
    exact Nat.mod_lt _ chunkSize_pos
  obtain ⟨hopen, hpending, hholds⟩ := Reader.readHeader_newReader hsource (fun _ => length_of_mem_slices) hlast
  have hdelivers := Reader.Delivers.of_readHeader hopen (hholds.delivers hopen hpending)
  rw [slices_flatten chunkSize_pos] at hdelivers
  exact hdelivers sizes hsizes

end Reading

/-- The length of a message, in the sixteen bytes behind the tag. -/
def lengthStamp (n : ℕ) : Bytes := UInt8.ofNat (n / 256) :: UInt8.ofNat n :: replicate 14 0

def stampedPush (message : Bytes) (final : Bool) : Bytes :=
  (if final then 3 else 0) :: (lengthStamp message.length ++ message)

def stampedPull (chunk : Bytes) : Option (Unit × Bytes × Bool) :=
  if chunk.tail.take 16 == lengthStamp (chunk.length - aBytes) then some ((), chunk.drop aBytes, chunk.head? == some 3)
  else none

theorem lengthStamp_length (n : ℕ) : (lengthStamp n).length = 16 := by
  rw [lengthStamp, length_cons, length_cons, length_replicate]

theorem stampedPush_length (message : Bytes) (final : Bool) :
    (stampedPush message final).length = message.length + aBytes := by
  rw [stampedPush, length_cons, length_append, lengthStamp_length, aBytes]
  omega

theorem stampedPull_stampedPush (message : Bytes) (final : Bool) :
    stampedPull (stampedPush message final) = some ((), message, final) := by
  have hstamp : (stampedPush message final).tail.take 16 = lengthStamp message.length :=
    take_left' (lengthStamp_length _)
  have hmessage : (stampedPush message final).drop aBytes = message := drop_left' (lengthStamp_length _)
  rw [stampedPull, hstamp, hmessage, stampedPush_length, Nat.add_sub_cancel, if_pos (beq_self_eq_true _)]
  cases final <;> rfl

/-- A stream that stamps each chunk with its length and checks the stamp. -/
def stampedStream : SecretStream where
  Key := Unit
  Seed := Unit
  PushState := Unit
  PullState := Unit
  zeroPush := ()
  zeroPull := ()
  initPush _ _ := ((), replicate headerBytes 0)
  push _ message final := ((), stampedPush message final)
  initPull _ _ := some ()
  pull _ chunk := stampedPull chunk
  InStep _ _ := True
  header_length _ _ := length_replicate
  push_length _ := stampedPush_length
  initPull_inStep _ _ := ⟨(), rfl, trivial⟩
  pull_push _ _ message final _ := ⟨(), stampedPull_stampedPush message final, trivial⟩

/-- Two writes, one of them empty, delivered in two pieces and read byte by byte. -/
theorem readMany_close_stamped : ∃ n r,
    (newReader (S := stampedStream) ⟨[replicate 20 0, replicate 4 0 ++ 3 :: 0 :: 2 :: replicate 14 0 ++ [1, 2]], true⟩
      ()).readMany (fun _ => 1) n = ([1, 2], some .eof, r) :=
  readMany_close stampedStream () () [[1, 2], []] (by decide) _
    (Eq.trans (by decide +kernel) (@Writer.close_output stampedStream () () [[1, 2], []] (by decide)).symm) _
    fun _ => Nat.one_pos

end WalG.Crypto
