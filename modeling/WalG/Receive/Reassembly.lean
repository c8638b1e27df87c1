import WalG.Receive.WalSegment

/-! # The received segments are the slices of the stream

A stream of WAL bytes is cut into messages at arbitrary places.
-/
namespace WalG.Receive
open Foundation List

/-- What the server sends: a keepalive, or the next bytes of the stream. -/
inductive Piece where
  | keepalive (replyRequested : Bool)
  | bytes (walData : Bytes)
  deriving DecidableEq, Repr

def Piece.walData : Piece → Bytes
  | .keepalive _ => []
  | .bytes walData => walData

/-- The messages of the pieces of a stream, from a log position on. -/
def messages (pos : ℕ) : List Piece → List BackendMessage
  | [] => []
  | .keepalive replyRequested :: pieces => .primaryKeepalive replyRequested :: messages pos pieces
  | .bytes walData :: pieces => .xLogData pos walData :: messages (pos + walData.length) pieces

def stream (pieces : List Piece) : Bytes := pieces.flatMap Piece.walData

@[simp] theorem stream_keepalive (r : Bool) (pieces : List Piece) :
    stream (.keepalive r :: pieces) = stream pieces := rfl

@[simp] theorem stream_bytes (walData : Bytes) (pieces : List Piece) :
    stream (.bytes walData :: pieces) = walData ++ stream pieces := rfl

/-- The segment from `start` on has received the bytes `got` and no message beyond them. -/
structure Holds (seg : WalSegment) (size start : ℕ) (got : Bytes) : Prop where
  startLSN : seg.startLSN = start
  endLSN : seg.endLSN = start + size
  walSegmentBytes : seg.walSegmentBytes = size
  data_length : seg.data.length = size
  writeIndex : seg.writeIndex = got.length
  data_take : seg.data.take got.length = got
  lastMsg : seg.lastMsg = none

/-- The part of a message from the start of the segment on begins at the write position. -/
def Continues (seg : WalSegment) (walStart : ℕ) (walData : Bytes) : Prop :=
  max walStart seg.startLSN = seg.startLSN + seg.writeIndex ∧ seg.startLSN ≤ walStart + walData.length

theorem holds_newWalSegment {size start : ℕ} (timeline : ℕ) (hstart : size ∣ start)
    (hend : start + size < 2 ^ 64) : Holds (newWalSegment timeline start size) size start [] where
  startLSN := Nat.div_mul_cancel hstart
  endLSN := by
    rw [newWalSegment, Nat.div_mul_cancel hstart]
    exact Nat.mod_eq_of_lt hend
  walSegmentBytes := rfl
  data_length := length_replicate
  writeIndex := rfl
  data_take := rfl
  lastMsg := rfl

section OneMessage

variable {seg : WalSegment} {size start walStart : ℕ} {got walData : Bytes}

theorem isComplete_iff (hstart : seg.startLSN = start) (hend : seg.endLSN = start + size)
    (hfit : start + size < 2 ^ 64) (hwrite : seg.writeIndex ≤ size) :
    seg.isComplete = true ↔ seg.writeIndex = size := by
  rw [WalSegment.isComplete, decide_eq_true_iff, hstart, hend, Nat.mod_eq_of_lt (by omega)]
  omega

variable (hseg : Holds seg size start got)

include hseg

theorem messageOffset_eq : seg.messageOffset walStart = start - walStart := by
  rw [WalSegment.messageOffset, hseg.startLSN]
  split_ifs with h
  · rfl
  · omega

theorem add_messageOffset : walStart + seg.messageOffset walStart = max walStart start := by
  rw [messageOffset_eq hseg]
  omega

theorem processMessage_of_continues (hgot : got.length ≤ size)
    (hmsg : walStart + walData.length < 2 ^ 64) (h : Continues seg walStart walData) :
    seg.processMessage (.xLogData walStart walData) = ((.ok, none), seg.accept walStart walData) := by
  obtain ⟨hpos, hreach⟩ := h
  rw [hseg.startLSN, hseg.writeIndex] at hpos
  rw [hseg.startLSN] at hreach
  rw [WalSegment.processMessage, add_messageOffset hseg, hseg.startLSN, hseg.endLSN, hseg.writeIndex,
    Nat.mod_eq_of_lt hmsg, hpos, if_neg (by omega), if_neg (by omega), if_neg (by simp)]

theorem processMessage_of_not_continues (hgot : got.length ≤ size)
    (hfit : start + size < 2 ^ 64) (hmsg : walStart + walData.length < 2 ^ 64) (h : ¬ Continues seg walStart walData) :
    ∃ result err, seg.processMessage (.xLogData walStart walData) = ((result, some err), seg) := by
  rw [Continues, hseg.startLSN, hseg.writeIndex] at h
  rw [WalSegment.processMessage, add_messageOffset hseg, hseg.startLSN, hseg.endLSN, hseg.writeIndex,
    Nat.mod_eq_of_lt hmsg, Nat.mod_eq_of_lt (show start + got.length < 2 ^ 64 by omega)]
  split_ifs with hafter hbefore hgap
  · exact ⟨_, _, rfl⟩
  · exact ⟨_, _, rfl⟩
  · exact ⟨_, _, rfl⟩
  · rw [not_not, Nat.mod_eq_of_lt (by omega)] at hgap
    exact absurd ⟨hgap.symm, by omega⟩ h

theorem accept_spec (hgot : got.length ≤ size) {piece : Bytes} (hpiece : walData.drop (start - walStart) = piece) :
    (seg.accept walStart walData).data.length = size ∧
      (seg.accept walStart walData).writeIndex = min size (got ++ piece).length ∧
      (seg.accept walStart walData).data.take (min size (got ++ piece).length) = (got ++ piece).take size ∧
      (seg.accept walStart walData).lastMsg =
        if size < (got ++ piece).length then some (.xLogData walStart walData) else none := by
  rw [WalSegment.accept, messageOffset_eq hseg, hpiece, hseg.writeIndex, hseg.lastMsg, hseg.data_length]
  have hlen := hseg.data_length
  refine ⟨?_, ?_, ?_, ?_⟩
  · rw [← hlen]
    exact copyAt_length (by omega)
  · change got.length + min (size - got.length) piece.length = _
    rw [length_append]
    omega
  · subst hlen
    exact copyAt_take hgot hseg.data_take rfl
  · change (if min (size - got.length) piece.length < piece.length then _ else none) = _
    rw [length_append]
    congr 1
    rw [eq_iff_iff]
    omega

theorem holds_accept (hgot : got.length ≤ size) {piece : Bytes}
    (hpiece : walData.drop (start - walStart) = piece) (hshort : (got ++ piece).length ≤ size) :
    Holds (seg.accept walStart walData) size start (got ++ piece) := by
  obtain ⟨hlen, hwrite, htake, hlast⟩ := accept_spec hseg hgot hpiece
  rw [min_eq_right hshort] at hwrite htake
  rw [take_of_length_le hshort] at htake
  rw [if_neg (by omega)] at hlast
  exact ⟨hseg.startLSN, hseg.endLSN, hseg.walSegmentBytes, hlen, hwrite, htake, hlast⟩

end OneMessage

section Step

variable {seg : WalSegment} {size start : ℕ} {got walData : Bytes} (hseg : Holds seg size start got)
  (hgot : got.length < size)

include hseg hgot

theorem process_next (hmsg : start + got.length + walData.length < 2 ^ 64) :
    seg.processMessage (.xLogData (start + got.length) walData) =
      ((.ok, none), seg.accept (start + got.length) walData) := by
  apply processMessage_of_continues hseg hgot.le hmsg
  rw [Continues, hseg.startLSN, hseg.writeIndex]
  omega

omit hseg hgot in
theorem drop_next (start : ℕ) (got walData : Bytes) : walData.drop (start - (start + got.length)) = walData := by
  rw [Nat.sub_eq_zero_of_le (Nat.le_add_right _ _), drop_zero]

/-- The next bytes that do not fill the segment stay in it. -/
theorem step_open (hfit : start + size < 2 ^ 64) (hopen : (got ++ walData).length < size) :
    ¬ (seg.accept (start + got.length) walData).isComplete = true ∧
      Holds (seg.accept (start + got.length) walData) size start (got ++ walData) := by
  have hnext := holds_accept hseg hgot.le (drop_next start got walData) hopen.le
  refine ⟨?_, hnext⟩
  rw [isComplete_iff hnext.startLSN hnext.endLSN hfit (by rw [hnext.writeIndex]; omega), hnext.writeIndex]
  omega

/-- The next bytes that fill the segment complete it, and their rest opens the next one. -/
theorem step_full (hdvd : size ∣ start) (hfit : start + size + size < 2 ^ 64) (hmsg : walData.length ≤ size)
    (hfull : size ≤ (got ++ walData).length) :
    (seg.accept (start + got.length) walData).isComplete = true ∧
      (seg.accept (start + got.length) walData).startLSN = start ∧
      (seg.accept (start + got.length) walData).data = (got ++ walData).take size ∧
      ∃ next, (seg.accept (start + got.length) walData).nextWalSegment = .ok next ∧
        Holds next size (start + size) ((got ++ walData).drop size) := by
  obtain ⟨hlen, hwrite, htake, hlast⟩ := accept_spec hseg hgot.le (drop_next start got walData)
  rw [min_eq_left hfull] at hwrite htake
  rw [take_of_length_le hlen.le] at htake
  have hstart : (seg.accept (start + got.length) walData).startLSN = start := hseg.startLSN
  have hend : (seg.accept (start + got.length) walData).endLSN = start + size := hseg.endLSN
  have hcomplete := (isComplete_iff hstart hend (by omega) hwrite.le).mpr hwrite
  refine ⟨hcomplete, hstart, htake, ?_⟩
  have hsize : (seg.accept (start + got.length) walData).walSegmentBytes = size := hseg.walSegmentBytes
  have hnew := holds_newWalSegment (seg.accept (start + got.length) walData).timeLine
    (hdvd.add (dvd_refl size)) hfit
  rw [WalSegment.nextWalSegment, if_pos hcomplete, hlast, hend, hsize]
  rw [length_append] at hfull
  by_cases hrest : size < (got ++ walData).length
  · rw [if_pos hrest]
    rw [length_append] at hrest
    have hdrop : walData.drop (start + size - (start + got.length)) = (got ++ walData).drop size := by
      rw [drop_append, drop_of_length_le hgot.le, nil_append]
      congr 1
      omega
    have hcont : Continues (newWalSegment (seg.accept (start + got.length) walData).timeLine (start + size) size)
        (start + got.length) walData := by
      rw [Continues, hnew.startLSN, hnew.writeIndex, length_nil]
      omega
    simp only [processMessage_of_continues hnew (Nat.zero_le _) (by omega) hcont]
    refine ⟨_, rfl, ?_⟩
    have hholds := holds_accept hnew (Nat.zero_le _) hdrop (by
      rw [nil_append, length_drop, length_append]
      omega)
    rwa [nil_append] at hholds
  · rw [if_neg hrest]
    refine ⟨_, rfl, ?_⟩
    rw [drop_of_length_le (by omega)]
    exact hnew

end Step

def placed (seg : WalSegment) : ℕ × Bytes := (seg.startLSN, seg.data)

/-- The whole slices of a stream with the log positions they start at. -/
def placedSlices (size start : ℕ) (s : Bytes) : List (ℕ × Bytes) :=
  (slices size s).mapIdx fun i slice => (start + i * size, slice)

theorem placedSlices_append {size start : ℕ} (hsize : 0 < size) {a : Bytes} (ha : a.length = size) (b : Bytes) :
    placedSlices size start (a ++ b) = (start, a) :: placedSlices size (start + size) b := by
  rw [placedSlices, slices_append ha hsize, mapIdx_cons, Nat.zero_mul, Nat.add_zero, placedSlices]
  congr 2
  funext i slice
  rw [Nat.add_mul, Nat.one_mul]
  congr 1
  omega

/-- From an open segment on, the run completes the slices of what the segment holds
followed by the rest of the stream. -/
theorem receive_open {size start : ℕ} (hsize : 0 < size) (hdvd : size ∣ start) {seg : WalSegment} {got : Bytes}
    (hseg : Holds seg size start got) (hgot : got.length < size) (pieces : List Piece)
    (hshort : ∀ piece ∈ pieces, piece.walData.length ≤ size)
    (hfit : start + ((got ++ stream pieces).length / size + 1) * size < 2 ^ 64) :
    ∃ completed last, receive seg (messages (start + got.length) pieces) = .ok (completed, last) ∧
      completed.map placed = placedSlices size start (got ++ stream pieces) ∧
      Holds last size (start + (got ++ stream pieces).length / size * size)
        (sliceRest size (got ++ stream pieces)) := by
  induction pieces generalizing seg start got with
  | nil =>
    have hstream : got ++ stream [] = got := append_nil got
    rw [hstream, Nat.div_eq_of_lt hgot, Nat.zero_mul, Nat.add_zero, placedSlices, slices_of_short hgot,
      sliceRest_of_short hgot]
    exact ⟨[], seg, rfl, rfl, hseg⟩
  | cons piece pieces ih =>
    have htail : ∀ p ∈ pieces, p.walData.length ≤ size := fun p hp => hshort p (mem_cons_of_mem _ hp)
    have hone : start + size ≤ start + ((got ++ stream (piece :: pieces)).length / size + 1) * size := by
      rw [Nat.add_mul, Nat.one_mul]
      omega
    cases piece with
    | keepalive r =>
      rw [stream_keepalive] at hfit hone ⊢
      obtain ⟨completed, last, hrun, hdone, hlast⟩ := ih hdvd hseg hgot htail hfit
      refine ⟨completed, last, ?_, hdone, hlast⟩
      have hopen : ¬ seg.isComplete = true := by
        rw [isComplete_iff hseg.startLSN hseg.endLSN (by omega) (by rw [hseg.writeIndex]; omega), hseg.writeIndex]
        omega
      rw [messages, receive, ← hrun]
      cases r <;> simp only [WalSegment.processMessage, if_neg hopen, Bool.false_eq_true, if_true, if_false]
    | bytes walData =>
      have hmsg : walData.length ≤ size := hshort _ mem_cons_self
      rw [stream_bytes, ← append_assoc] at hfit hone ⊢
      have hround := Nat.lt_mul_div_succ ((got ++ walData) ++ stream pieces).length hsize
      have hlen : (got ++ walData).length ≤ ((got ++ walData) ++ stream pieces).length := by
        rw [append_assoc, length_append, length_append, length_append]
        omega
      rw [Nat.mul_comm] at hround
      rw [messages, receive, process_next hseg hgot (by rw [length_append] at hlen; omega)]
      by_cases hopen : (got ++ walData).length < size
      · obtain ⟨hincomplete, hnext⟩ := step_open hseg hgot (by omega) hopen
        simp only [if_neg hincomplete]
        have hnow : (got ++ walData).length = got.length + walData.length := length_append
        have hrun := ih hdvd hnext hopen htail hfit
        rwa [hnow, ← Nat.add_assoc] at hrun
      · rw [not_lt] at hopen
        have ha : ((got ++ walData).take size).length = size := length_take_of_le hopen
        have hsplit : (got ++ walData) ++ stream pieces =
            (got ++ walData).take size ++ ((got ++ walData).drop size ++ stream pieces) := by
          rw [← append_assoc, take_append_drop]
        have hdiv := div_length_append ha hsize ((got ++ walData).drop size ++ stream pieces)
        rw [hsplit, hdiv, Nat.add_mul, Nat.add_mul, Nat.one_mul] at hfit
        obtain ⟨hcomplete, hstart, hdata, next, hnext, hholds⟩ :=
          step_full hseg hgot hdvd (by omega) hmsg hopen
        have hpos : start + got.length + walData.length = start + size + ((got ++ walData).drop size).length := by
          rw [length_drop, length_append]
          rw [length_append] at hopen
          omega
        obtain ⟨completed, last, hrun, hdone, hlast⟩ := ih (hdvd.add (dvd_refl size)) hholds (by
          omega) htail (by
          rw [Nat.add_mul, Nat.one_mul]
          omega)
        refine ⟨seg.accept (start + got.length) walData :: completed, last, ?_, ?_, ?_⟩
        · simp only [if_pos hcomplete, hnext]
          rw [hpos, hrun]
          rfl
        · rw [map_cons, hdone, hsplit, placedSlices_append hsize ha, placed, hstart, hdata]
        · rw [hsplit, hdiv, sliceRest_append ha hsize, Nat.add_mul, Nat.one_mul, Nat.add_comm _ size, ← Nat.add_assoc]
          exact hlast

/-- Every stream of WAL bytes that starts at a segment boundary, cut into messages of at
most a segment with keepalives in between, becomes its consecutive slices at their log
positions, and the open segment holds the rest. A message that does not continue there is
refused and leaves the segment as it is. -/
theorem receive_slices (timeline size start : ℕ) (hsize : 0 < size) (hstart : size ∣ start) (pieces : List Piece)
    (hshort : ∀ piece ∈ pieces, piece.walData.length ≤ size)
    (hfit : start + ((stream pieces).length / size + 1) * size < 2 ^ 64) :
    ∃ completed last,
      receive (newWalSegment timeline start size) (messages start pieces) = .ok (completed, last) ∧
      completed.map placed = placedSlices size start (stream pieces) ∧
      last.startLSN = start + (stream pieces).length / size * size ∧
      last.data.take last.writeIndex = sliceRest size (stream pieces) ∧
      ∀ walStart walData, walStart + walData.length < 2 ^ 64 → ¬ Continues last walStart walData →
        ∃ result err, last.processMessage (.xLogData walStart walData) = ((result, some err), last) := by
  have hone : start + size ≤ start + ((stream pieces).length / size + 1) * size := by
    rw [Nat.add_mul, Nat.one_mul]
    omega
  obtain ⟨completed, last, hrun, hdone, hlast⟩ := receive_open hsize hstart
    (holds_newWalSegment timeline hstart (by omega)) hsize pieces hshort hfit
  rw [nil_append] at hdone hlast
  have hrest : (sliceRest size (stream pieces)).length ≤ size := by
    rw [sliceRest_length]
    exact (Nat.mod_lt _ hsize).le
  refine ⟨completed, last, hrun, hdone, hlast.startLSN, ?_, ?_⟩
  · rw [hlast.writeIndex, hlast.data_take]
  · intro walStart walData hmsg hcont
    rw [Nat.add_mul, Nat.one_mul, ← Nat.add_assoc] at hfit
    exact processMessage_of_not_continues hlast hrest hfit hmsg hcont

/-- Two messages with a keepalive in between, the second across a segment boundary. -/
def crossing : List Piece := [.bytes [1, 2, 3], .keepalive true, .bytes [4, 5, 6]]

theorem receive_slices_crossing : ∃ completed last,
    receive (newWalSegment 1 8 4) (messages 8 crossing) = .ok (completed, last) ∧
      completed.map placed = [(8, [1, 2, 3, 4])] ∧ last.startLSN = 12 ∧
      last.data.take last.writeIndex = [5, 6] ∧
      ∃ result err, last.processMessage (.xLogData 13 [7]) = ((result, some err), last) := by
  obtain ⟨completed, last, hrun, hdone, hstart, hrest, hreject⟩ :=
    receive_slices 1 4 8 (by decide) (by decide) crossing (by decide) (by decide)
  refine ⟨completed, last, hrun, hdone, hstart, hrest, hreject 13 [7] (by decide) ?_⟩
  have hindex : (last.data.take last.writeIndex).length = 2 := by
    rw [hrest]
    rfl
  rw [length_take] at hindex
  rw [Continues, hstart]
  change ¬ (max 13 12 = 12 + last.writeIndex ∧ _)
  omega

end WalG.Receive
