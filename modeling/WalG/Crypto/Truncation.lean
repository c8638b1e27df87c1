import WalG.Crypto.RoundTrip

/-! # A ciphertext that is cut off

Behind the header the reader takes every end of its source for the end of the stream.
-/
namespace WalG.Crypto
open Foundation List

/-- A part of a chunk is not a chunk that was pushed, so it fails to pull in the place of the whole. -/
def SecretStream.PartsFail (S : SecretStream) : Prop :=
  ∀ state pullState message final, S.InStep state pullState → message.length ≤ chunkSize →
    ∀ t < (S.push state message final).2.length, S.pull pullState ((S.push state message final).2.take t) = none

variable {S : SecretStream}

/-- What one call of `Read` reports, and whether it decrypts a chunk with the final tag. -/
structure ReadReport where
  err : Option CryptError
  final : Bool
  deriving DecidableEq, Repr

namespace Reader

def decryptsFinal (r : Reader S) : Bool :=
  r.readHeader.headerErr.isNone && r.readHeader.pending.isEmpty &&
    match r.readHeader.source.readFull r.readHeader.inputSize with
    | (_, some .eof, _) => false
    | (chunk, _, _) => !chunk.isEmpty && (S.pull r.readHeader.state chunk).any fun pulled => pulled.2.2

/-- Calls with buffers of the given sizes, going on after errors. -/
def reports (r : Reader S) : List ℕ → List ReadReport
  | [] => []
  | k :: sizes => ⟨(r.read k).2.1, r.decryptsFinal⟩ :: reports (r.read k).2.2 sizes

end Reader

def NeverPanics (reports : List ReadReport) : Prop := ∀ report ∈ reports, report.err ≠ some .panic

/-- The end of the file is reported only after the final chunk. -/
def EndsAfterFinal (reports : List ReadReport) : Prop :=
  ∀ before report after, reports = before ++ report :: after → report.err = some .eof →
    ∃ earlier ∈ before, earlier.final = true

/-- Before the end of the file another error is reported. -/
def FailsBeforeEnd (reports : List ReadReport) : Prop :=
  ∀ before report after, reports = before ++ report :: after → report.err = some .eof →
    ∃ earlier ∈ before, ∃ e, earlier.err = some e ∧ e ≠ .eof

section Reports

variable {report : ReadReport} {reports : List ReadReport}

theorem failsBeforeEnd_nil : FailsBeforeEnd [] := by
  intro before report after hsplit
  exact absurd hsplit.symm (append_ne_nil_of_right_ne_nil _ (cons_ne_nil _ _))

theorem FailsBeforeEnd.cons_error {e : CryptError} (herr : report.err = some e) (he : e ≠ .eof) :
    FailsBeforeEnd (report :: reports) := by
  intro before report' after hsplit heof
  cases before with
  | nil =>
    cases hsplit
    exact absurd (Option.some.inj (herr.symm.trans heof)) he
  | cons first before =>
    cases hsplit
    exact ⟨report, mem_cons_self, e, herr, he⟩

theorem FailsBeforeEnd.cons_none (herr : report.err = none) (h : FailsBeforeEnd reports) :
    FailsBeforeEnd (report :: reports) := by
  intro before report' after hsplit heof
  cases before with
  | nil =>
    cases hsplit
    exact absurd (herr.symm.trans heof) (by decide)
  | cons first before =>
    obtain ⟨-, hrest⟩ := cons.inj hsplit
    obtain ⟨earlier, hmem, hearlier⟩ := h before report' after hrest heof
    exact ⟨earlier, mem_cons_of_mem _ hmem, hearlier⟩

theorem not_failsBeforeEnd {m : ℕ} {errs : List (Option CryptError)}
    (h : reports.map ReadReport.err = replicate m none ++ some .eof :: errs) : ¬ FailsBeforeEnd reports := by
  obtain ⟨before, rest, rfl, hbefore, hrest⟩ := map_eq_append_iff.mp h
  obtain ⟨report, after, rfl, heof, -⟩ := map_eq_cons_iff.mp hrest
  intro hfails
  obtain ⟨earlier, hmem, e, herr, -⟩ := hfails before report after rfl heof
  have hnone : some e ∈ replicate m none := hbefore ▸ herr ▸ mem_map_of_mem hmem
  exact absurd (eq_of_mem_replicate hnone) (Option.some_ne_none e)

theorem not_neverPanics (h : some .panic ∈ reports.map ReadReport.err) : ¬ NeverPanics reports := by
  obtain ⟨report, hmem, herr⟩ := mem_map.mp h
  exact fun hnever => hnever report hmem herr

end Reports

namespace Reader

section Steps

variable {r : Reader S} {state : S.PushState} {chunks : List Bytes} {last : Bytes} {t : ℕ}

/-- The source holds the first `t` bytes of the chunks, not all of them, and the two sides are in step. -/
structure HoldsPart (r : Reader S) (state : S.PushState) (chunks : List Bytes) (last : Bytes) (t : ℕ) : Prop where
  source : r.source.content = (sealed state chunks last).take t
  lt : t < (sealed state chunks last).length
  inStep : S.InStep state r.state
  inputSize : r.inputSize = chunkSize + aBytes
  chunk_length : ∀ chunk ∈ chunks, chunk.length = chunkSize
  last_lt : last.length < chunkSize

section Part

variable (h : r.HoldsPart state chunks last t)

include h

theorem HoldsPart.setPending (pending : Bytes) : { r with pending := pending }.HoldsPart state chunks last t :=
  ⟨h.source, h.lt, h.inStep, h.inputSize, h.chunk_length, h.last_lt⟩

theorem HoldsPart.readNextChunk_full (hopen : r.Opened)
    (hle : chunkSize + aBytes ≤ t) : ∃ r' state' chunks', r.readNextChunk = (none, r') ∧ r'.Opened ∧
      r'.pending.length = chunkSize ∧ r'.HoldsPart state' chunks' last (t - (chunkSize + aBytes)) := by
  have hlt := h.lt
  cases chunks with
  | nil =>
    have hlen : (sealed state [] last).length = last.length + aBytes := S.push_length state last true
    have hlast := h.last_lt
    omega
  | cons chunk chunks =>
    have hchunk := h.chunk_length chunk mem_cons_self
    have hlen : (S.push state chunk false).2.length = chunkSize + aBytes := by rw [S.push_length, hchunk]
    have hcontent : r.source.content = (S.push state chunk false).2 ++
        (sealed (S.push state chunk false).1 chunks last).take (t - (chunkSize + aBytes)) := by
      rw [h.source, sealed_cons, take_append, hlen, take_of_length_le (hlen.le.trans hle)]
    obtain ⟨r', hnext, hpending, hopen', hrest, hstep, hsize⟩ :=
      readNextChunk_push hopen h.inStep h.inputSize hchunk hcontent
    refine ⟨r', _, chunks, hnext, hopen', hpending ▸ hchunk, hrest, ?_, hstep, hsize,
      fun c hc => h.chunk_length c (mem_cons_of_mem _ hc), h.last_lt⟩
    rw [sealed_cons, length_append, hlen] at hlt
    omega

theorem HoldsPart.content_eq (hlt : t < chunkSize + aBytes) :
    ∃ message final, message.length ≤ chunkSize ∧ t < (S.push state message final).2.length ∧
      r.source.content = (S.push state message final).2.take t := by
  cases chunks with
  | nil => exact ⟨last, true, h.last_lt.le, h.lt, h.source⟩
  | cons chunk chunks =>
    have hchunk := h.chunk_length chunk mem_cons_self
    have hlen : t < (S.push state chunk false).2.length := by rwa [S.push_length, hchunk]
    refine ⟨chunk, false, hchunk.le, hlen, ?_⟩
    rw [h.source, sealed_cons, take_append_of_le_length hlen.le]

theorem HoldsPart.readNextChunk_short (hparts : S.PartsFail) (hopen : r.Opened)
    (hpos : 0 < t) (hlt : t < chunkSize + aBytes) :
    ∃ r', r.readNextChunk = (some .corruptedChunk, r') ∧ r'.Opened ∧ r'.pending = [] ∧ r'.Drained := by
  obtain ⟨message, final, hmessage, hcut, hcontent⟩ := h.content_eq hlt
  have hlen : r.source.content.length = t := by
    rw [hcontent, length_take, min_eq_left hcut.le]
  have hne : r.source.content ≠ [] := by
    rw [← length_pos_iff, hlen]
    exact hpos
  obtain ⟨source, hread, hrest⟩ := PieceReader.readFull_of_lt (hlen.trans_lt (hlt.trans_eq h.inputSize.symm))
  rw [if_neg hne] at hread
  have hpull : S.pull r.state r.source.content = none := by
    rw [hcontent]
    exact hparts state r.state message final h.inStep hmessage t hcut
  refine ⟨{ r with source := source, inputSize := r.source.content.length, pending := [] }, ?_, hopen, rfl, hrest,
    length_pos_iff.mpr hne⟩
  simp only [readNextChunk, hread, if_neg hne, pullChunk, hpull]

end Part

theorem HoldsPart.drained (h : r.HoldsPart state chunks last 0) : r.Drained := by
  refine ⟨h.source, ?_⟩
  rw [h.inputSize]
  decide

theorem readNextChunk_emptied (h : r.inputSize = 0) : r.readNextChunk = (some .panic, r) := by
  obtain ⟨source, hread, -⟩ := @PieceReader.readFull_of_le 0 r.source (Nat.zero_le _)
  simp only [readNextChunk, h, hread, take_zero, if_pos]

theorem readHeader_readHeader (r : Reader S) : r.readHeader.readHeader = r.readHeader := by
  have hread : r.readHeader.headerRead = true := by
    unfold readHeader
    split
    · assumption
    · split
      · rfl
      · split <;> rfl
  rw [readHeader, if_pos hread]

theorem reports_readHeader (r : Reader S) (sizes : List ℕ) : r.readHeader.reports sizes = r.reports sizes := by
  cases sizes with
  | nil => rfl
  | cons k sizes => simp only [reports, read, decryptsFinal, readHeader_readHeader]

end Steps

section Runs

variable {r : Reader S} {state : S.PushState} {chunks : List Bytes} {last : Bytes} {t : ℕ}

theorem reports_headerErr {e : CryptError} (hread : r.headerRead = true) (herr : r.headerErr = some e)
    (sizes : List ℕ) : ∀ report ∈ r.reports sizes, report.err = some e := by
  have hheader : r.readHeader = r := by rw [readHeader, if_pos hread]
  have hfails : ∀ k, r.read k = ([], some e, r) := fun k => by simp only [read, hheader, herr]
  induction sizes with
  | nil => simp [reports]
  | cons k sizes ih =>
    rw [reports, hfails]
    exact forall_mem_cons.mpr ⟨rfl, ih⟩

/-- A source that ends inside a chunk fails before its end is reported. -/
theorem HoldsPart.failsBeforeEnd (hparts : S.PartsFail) (h : r.HoldsPart state chunks last t) (hopen : r.Opened)
    (hcut : t % (chunkSize + aBytes) ≠ 0) (sizes : List ℕ) : FailsBeforeEnd (r.reports sizes) := by
  induction sizes generalizing r state chunks t with
  | nil => exact failsBeforeEnd_nil
  | cons k sizes ih =>
    rw [reports]
    by_cases hpending : r.pending = []
    · rcases lt_or_ge t (chunkSize + aBytes) with hlt | hle
      · have hpos : 0 < t := by
          rw [Nat.mod_eq_of_lt hlt] at hcut
          omega
        obtain ⟨r', hnext, -⟩ := h.readNextChunk_short hparts hopen hpos hlt
        rw [read_error hopen hpending hnext]
        exact .cons_error rfl (by decide)
      · obtain ⟨r', state', chunks', hnext, hopen', -, hholds⟩ := h.readNextChunk_full hopen hle
        rw [read_chunk hopen hpending hnext]
        refine .cons_none rfl (ih (hholds.setPending _) hopen' ?_)
        rwa [← Nat.mod_eq_sub_mod hle]
    · rw [read_pending hopen hpending]
      exact .cons_none rfl (ih (h.setPending _) hopen hcut)

/-- What is reported behind the last whole chunk, call by call. -/
def endReports (t : ℕ) : List (Option CryptError) :=
  if t % (chunkSize + aBytes) = 0 then [some .eof, some .panic]
  else [some .corruptedChunk, some .eof, some .panic]

theorem Drained.reports (h : r.Drained) (hopen : r.Opened) (hpending : r.pending = []) (k k' : ℕ) :
    (r.reports [k, k']).map ReadReport.err = [some .eof, some .panic] := by
  obtain ⟨r', hnext, hopen', hpending', hsize⟩ := readNextChunk_drained h
  simp only [Reader.reports, read_error hopen hpending hnext,
    read_error (hopen' hopen) (hpending'.trans hpending) (readNextChunk_emptied hsize), map_cons, map_nil]

/-- Reading on with large buffers reaches the end of every source that is cut off. -/
theorem HoldsPart.exists_reports (hparts : S.PartsFail) (h : r.HoldsPart state chunks last t) (hopen : r.Opened)
    (hpending : r.pending = []) :
    ∃ sizes m, (r.reports sizes).map ReadReport.err = replicate m none ++ endReports t := by
  induction t using Nat.strong_induction_on generalizing r state chunks with
  | _ t ih =>
    rcases lt_or_ge t (chunkSize + aBytes) with hlt | hle
    · rcases Nat.eq_zero_or_pos t with rfl | hpos
      · exact ⟨[1, 1], 0, h.drained.reports hopen hpending 1 1⟩
      · obtain ⟨r', hnext, hopen', hpending', hdrained⟩ := h.readNextChunk_short hparts hopen hpos hlt
        refine ⟨[1, 1, 1], 0, ?_⟩
        rw [Reader.reports, read_error hopen hpending hnext, map_cons, hdrained.reports hopen' hpending',
          endReports, if_neg (by rw [Nat.mod_eq_of_lt hlt]; omega)]
        rfl
    · obtain ⟨r', state', chunks', hnext, hopen', hlen, hholds⟩ := h.readNextChunk_full hopen hle
      have hdrop : r'.pending.drop chunkSize = [] := drop_of_length_le hlen.le
      obtain ⟨sizes, m, hreports⟩ := ih _ (Nat.sub_lt_self (by decide) hle) (hholds.setPending []) hopen' rfl
      refine ⟨chunkSize :: sizes, m + 1, ?_⟩
      rw [Reader.reports, read_chunk hopen hpending hnext, hdrop, map_cons, hreports, endReports, endReports,
        ← Nat.mod_eq_sub_mod hle]
      rfl

end Runs

section Prefixes

variable {source : PieceReader} {key : S.Key} {seed : S.Seed} {n : ℕ}

theorem reports_of_header_cut (hlt : source.content.length < headerBytes) (sizes : List ℕ) :
    ∀ report ∈ (newReader source key).reports sizes, report.err = some .header := by
  obtain ⟨source', hread, -⟩ := PieceReader.readFull_of_lt hlt
  have hheader : (newReader source key).readHeader =
      ⟨source', S.zeroPull, chunkSize + aBytes, [], true, some .header, key⟩ := by
    simp [newReader, readHeader, hread]
  rw [← reports_readHeader, hheader]
  exact reports_headerErr rfl rfl sizes

theorem readHeader_holdsPart {chunks : List Bytes} {last : Bytes}
    (hsource : source.content = ((S.initPush key seed).2 ++ sealed (S.initPush key seed).1 chunks last).take n)
    (hle : headerBytes ≤ n) (hlt : n < ((S.initPush key seed).2 ++ sealed (S.initPush key seed).1 chunks last).length)
    (hchunks : ∀ chunk ∈ chunks, chunk.length = chunkSize) (hlast : last.length < chunkSize) :
    (newReader source key).readHeader.Opened ∧ (newReader source key).readHeader.pending = [] ∧
      (newReader source key).readHeader.HoldsPart (S.initPush key seed).1 chunks last (n - headerBytes) := by
  have hlen := S.header_length key seed
  rw [take_append, hlen, take_of_length_le (hlen.le.trans hle)] at hsource
  rw [length_append, hlen] at hlt
  obtain ⟨hopen, hpending, hrest, hstep, hsize⟩ := readHeader_opens hsource
  exact ⟨hopen, hpending, hrest, by omega, hstep, hsize, hchunks, hlast⟩

end Prefixes

end Reader

/-- Everything the writer puts out, from the first call to the closing one. -/
def ciphertext (key : S.Key) (seed : S.Seed) (writes : List Bytes) : Bytes :=
  (writes.foldl Writer.write (newWriter key seed)).close.output

section Ciphertext

variable {key : S.Key} {seed : S.Seed} {writes : List Bytes} {n : ℕ} {source : PieceReader}

theorem lt_headerBytes_of_no_writes (hn : n < (ciphertext key seed []).length) : n < headerBytes := by
  have hlen : (ciphertext key seed []).length = aBytes := by
    rw [show ciphertext key seed [] = (S.push S.zeroPush [] true).2 from rfl, S.push_length, length_nil, Nat.zero_add]
  exact (hn.trans_eq hlen).trans (by decide)

theorem panic_mem_endReports (t : ℕ) : some CryptError.panic ∈ Reader.endReports t := by
  unfold Reader.endReports
  split_ifs <;> simp

section Cut

variable (hsource : source.content = (ciphertext key seed writes).take n)

include hsource

/-- A cut behind the header leaves the reader with a part of the chunks. -/
theorem exists_holdsPart (hn : n < (ciphertext key seed writes).length) (hle : headerBytes ≤ n) :
    (newReader source key).readHeader.Opened ∧ (newReader source key).readHeader.pending = [] ∧
      ∃ chunks last, (newReader source key).readHeader.HoldsPart (S.initPush key seed).1 chunks last
        (n - headerBytes) := by
  have hwrites : writes ≠ [] := by
    rintro rfl
    exact absurd (lt_headerBytes_of_no_writes hn) (not_lt.mpr hle)
  have hlast : (sliceRest chunkSize writes.flatten).length < chunkSize := by
    rw [sliceRest_length]
    exact Nat.mod_lt _ chunkSize_pos
  rw [ciphertext, Writer.close_output hwrites] at hn hsource
  obtain ⟨hopen, hpending, hholds⟩ :=
    Reader.readHeader_holdsPart hsource hle hn (fun _ => length_of_mem_slices) hlast
  exact ⟨hopen, hpending, _, _, hholds⟩

theorem exists_reports_of_cut (hparts : S.PartsFail) (hn : n < (ciphertext key seed writes).length)
    (hle : headerBytes ≤ n) :
    ∃ sizes m, ((newReader source key).reports sizes).map ReadReport.err =
      replicate m none ++ Reader.endReports (n - headerBytes) := by
  obtain ⟨hopen, hpending, chunks, last, hholds⟩ := exists_holdsPart hsource hn hle
  obtain ⟨sizes, m, hreports⟩ := hholds.exists_reports hparts hopen hpending
  exact ⟨sizes, m, by rw [← Reader.reports_readHeader, hreports]⟩

theorem reports_of_lt_headerBytes (hlt : n < headerBytes)
    (sizes : List ℕ) : ∀ report ∈ (newReader source key).reports sizes, report.err = some .header := by
  refine Reader.reports_of_header_cut ?_ sizes
  rw [hsource, length_take]
  omega

theorem not_neverPanics_of_cut (hparts : S.PartsFail) (hn : n < (ciphertext key seed writes).length)
    (hle : headerBytes ≤ n) :
    ∃ sizes, ¬ NeverPanics ((newReader source key).reports sizes) := by
  obtain ⟨sizes, m, hreports⟩ := exists_reports_of_cut hsource hparts hn hle
  refine ⟨sizes, not_neverPanics ?_⟩
  rw [hreports]
  exact mem_append_right _ (panic_mem_endReports _)

end Cut

theorem failsBeforeEnd_of_header {reports : List ReadReport} (h : ∀ report ∈ reports, report.err = some .header) :
    FailsBeforeEnd reports := by
  cases reports with
  | nil => exact failsBeforeEnd_nil
  | cons report reports => exact .cons_error (h report mem_cons_self) (by decide)

end Ciphertext

/-- Among the ciphertexts that are cut off, the reader refuses for good just those that end in the header. The end
is reported without any other error before it just if the cut is between two chunks. -/
theorem truncated_rejected_iff (S : SecretStream) (hparts : S.PartsFail) (key : S.Key) (seed : S.Seed)
    (writes : List Bytes) (n : ℕ) (hn : n < (ciphertext key seed writes).length) :
    ((∀ source : PieceReader, source.content = (ciphertext key seed writes).take n → ∀ sizes,
        NeverPanics ((newReader source key).reports sizes) ∧ EndsAfterFinal ((newReader source key).reports sizes) ∧
          FailsBeforeEnd ((newReader source key).reports sizes)) ↔ n < headerBytes) ∧
    ((∀ source : PieceReader, source.content = (ciphertext key seed writes).take n → ∀ sizes,
        FailsBeforeEnd ((newReader source key).reports sizes)) ↔
      n < headerBytes ∨ (n - headerBytes) % (chunkSize + aBytes) ≠ 0) := by
  have hwhole : (⟨[(ciphertext key seed writes).take n], true⟩ : PieceReader).content =
      (ciphertext key seed writes).take n := by
    rw [PieceReader.content, flatten_cons, flatten_nil, append_nil]
  constructor
  · constructor
    · intro hsafe
      by_contra hle
      obtain ⟨sizes, hpanics⟩ := not_neverPanics_of_cut hwhole hparts hn (not_lt.mp hle)
      exact hpanics (hsafe _ hwhole sizes).1
    · intro hlt source hsource sizes
      have hheader := reports_of_lt_headerBytes hsource hlt sizes
      refine ⟨?_, ?_, failsBeforeEnd_of_header hheader⟩
      · intro report hmem
        rw [hheader report hmem]
        decide
      · intro before report after hsplit heof
        have hmem : report ∈ (newReader source key).reports sizes := by
          rw [hsplit]
          exact mem_append_right _ mem_cons_self
        exact absurd ((hheader report hmem).symm.trans heof) (by decide)
  · constructor
    · intro hfails
      rcases lt_or_ge n headerBytes with hlt | hle
      · exact .inl hlt
      · refine .inr fun hboundary => ?_
        obtain ⟨sizes, m, hreports⟩ := exists_reports_of_cut hwhole hparts hn hle
        rw [Reader.endReports, if_pos hboundary] at hreports
        exact not_failsBeforeEnd hreports (hfails _ hwhole sizes)
    · intro hcut source hsource sizes
      rcases lt_or_ge n headerBytes with hlt | hle
      · exact failsBeforeEnd_of_header (reports_of_lt_headerBytes hsource hlt sizes)
      · obtain ⟨hopen, -, chunks, last, hholds⟩ := exists_holdsPart hsource hn hle
        rw [← Reader.reports_readHeader]
        exact hholds.failsBeforeEnd hparts hopen (hcut.resolve_left (not_lt.mpr hle)) sizes

theorem lengthStamp_injOn {m n : ℕ} (hm : m ≤ chunkSize) (hn : n ≤ chunkSize) (h : lengthStamp m = lengthStamp n) :
    m = n := by
  obtain ⟨hhigh, hrest⟩ := cons.inj h
  obtain ⟨hlow, -⟩ := cons.inj hrest
  have hhigh' := congrArg UInt8.toNat hhigh
  have hlow' := congrArg UInt8.toNat hlow
  rw [UInt8.toNat_ofNat', UInt8.toNat_ofNat'] at hhigh' hlow'
  rw [chunkSize] at hm hn
  omega

theorem stampedStream_partsFail : stampedStream.PartsFail := by
  intro _ _ message final _ hmessage t ht
  rw [stampedStream.push_length, aBytes] at ht
  refine if_neg fun hpulls => ?_
  have hstamp := eq_of_beq hpulls
  obtain _ | t := t
  · cases hstamp
  simp only [stampedStream, stampedPush, take_succ_cons, tail_cons, length_cons, length_take,
    length_append, lengthStamp_length] at hstamp
  have hfront := congrArg length hstamp
  rw [length_take, length_take, length_append, lengthStamp_length, lengthStamp_length] at hfront
  rw [take_take, take_append_of_le_length (by rw [lengthStamp_length]; omega),
    take_of_length_le (by rw [lengthStamp_length]; omega)] at hstamp
  have heq := lengthStamp_injOn hmessage (by rw [aBytes]; omega) hstamp
  rw [aBytes] at heq
  omega

theorem ciphertext_stamped : ciphertext (S := stampedStream) () () [[1]] =
    replicate headerBytes 0 ++ [3, 0, 1, 0, 0, 0, 0, 0, 0, 0, 0, 0, 0, 0, 0, 0, 0, 1] := by
  refine (Writer.close_output (cons_ne_nil _ _)).trans ?_
  decide +kernel

/-- The header alone, of the ciphertext of one byte, is read as an empty file. -/
theorem header_read_as_empty : 24 < (ciphertext (S := stampedStream) () () [[1]]).length ∧
    (newReader (S := stampedStream) ⟨[(ciphertext (S := stampedStream) () () [[1]]).take 24], true⟩ ()).reports [1, 1] =
      [⟨some .eof, false⟩, ⟨some .panic, false⟩] := by
  decide +kernel

/-- The same ciphertext, cut in its header. -/
theorem truncated_rejected_stamped : stampedStream.PartsFail ∧
    3 < (ciphertext (S := stampedStream) () () [[1]]).length ∧
    ∀ source : PieceReader, source.content = (ciphertext (S := stampedStream) () () [[1]]).take 3 → ∀ sizes,
      NeverPanics ((newReader (S := stampedStream) source ()).reports sizes) ∧
        EndsAfterFinal ((newReader (S := stampedStream) source ()).reports sizes) ∧
        FailsBeforeEnd ((newReader (S := stampedStream) source ()).reports sizes) := by
  have hlen : 3 < (ciphertext (S := stampedStream) () () [[1]]).length := by
    rw [ciphertext_stamped]
    decide
  exact ⟨stampedStream_partsFail, hlen,
    (truncated_rejected_iff stampedStream stampedStream_partsFail () () [[1]] 3 hlen).1.mpr (by decide)⟩

end WalG.Crypto
