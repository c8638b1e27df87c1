import WalG.Tarball.Position

/-! # The steps of a stream

From each position an empty output buffer leads to the next one: an entry is added to the open tar
or opens a new one, a file goes on, the input ends, or the data of a file that opened a tar are
refused by the tee tar.
-/
namespace WalG.Tarball
open Foundation List

variable {c : Config} {entries : List Entry} {done : List (Entry × Bool)} {e : Entry} {s : Streamer}
  {tars : List (List Cell)} {current : List Cell} {input : List Entry}

/-- The state in which the next entry of the input is current. -/
def Streamer.taken (c : Config) (s : Streamer) (e : Entry) (input : List Entry) : Streamer :=
  { s with
    outputTar := some (s.outputTar.getD .new)
    input := input
    remaining := e.data
    curHeader := some (c.remap e.header)
    fileReadIndex := 0 }

/-- The state in which the output tar has been ended. -/
def Streamer.withoutTar (s : Streamer) : Streamer :=
  { s with outputTar := none, outputIo := [], tarFileReadIndex := 0 }

theorem Idle.nextInputFile (h : Idle c entries done s tars current) (hinput : s.input = e :: input) :
    s.nextInputFile c =
      if s.tarFileReadIndex = 0 ∧ c.maxTarSize ≤ e.data.length then (s.taken c e input).addFile c (c.remap e.header)
      else if c.maxTarSize ≤ s.tarFileReadIndex + e.data.length then (s.taken c e input, some .outputEOF)
      else (s.taken c e input).addFile c (c.remap e.header) := by
  rw [Streamer.nextInputFile, Streamer.openOutput_idle h.header h.fresh]
  rw [h.header]
  rw [hinput]
  rfl

theorem Idle.nextInputFile_end (h : Idle c entries done s tars current) (hinput : s.input = []) :
    s.nextInputFile c =
      ({ s with outputTar := some (s.outputTar.getD .new), inputEnded := true }, some .eof) := by
  rw [Streamer.nextInputFile, Streamer.openOutput_idle h.header h.fresh]
  rw [h.header]
  rw [hinput]

theorem Idle.getD_nb (h : Idle c entries done s tars current) : (s.outputTar.getD .new).nb = 0 := by
  cases hw : s.outputTar with
  | none => rfl
  | some w => exact h.writer w hw

/-- The state in which an entry has been added to the open tar. -/
def Streamer.withEntry (c : Config) (s : Streamer) (e : Entry) (input : List Entry) : Streamer :=
  ((s.taken c e input).withHeader c (s.outputTar.getD .new) (c.remap e.header)).listFile (c.remap e.header)

theorem Idle.addFile (h : Idle c entries done s tars current) :
    (s.taken c e input).addFile c (c.remap e.header) = (s.withEntry c e input, none) :=
  Streamer.addFile_eq rfl h.getD_nb h.teeWriter

theorem withEntry_dir (hdir : e.isDir = true) : s.withEntry c e input =
    (s.taken c e input).withHeader c (s.outputTar.getD .new) (c.remap e.header) :=
  if_pos hdir

theorem withEntry_file (hdir : e.isDir = false) : s.withEntry c e input =
    { (s.taken c e input).withHeader c (s.outputTar.getD .new) (c.remap e.header) with
      files := (c.path e, e.modTime) :: s.files.filter (·.1 ≠ c.path e)
      tarFileReadIndex := s.tarFileReadIndex + e.data.length } :=
  if_neg (by rw [isDir_remap, hdir]; exact Bool.false_ne_true)

theorem withEntry_outputIo : (s.withEntry c e input).outputIo = s.outputIo ++
    (replicate (s.outputTar.getD .new).pad .zero ++ headerBlock (c.remap e.header)) := by
  cases hdir : e.isDir with
  | true => rw [withEntry_dir hdir]; rfl
  | false => rw [withEntry_file hdir]; rfl

theorem mem_insertFile {path path' : Text} {modTime : ℤ} {files : List (Text × ℤ)} :
    path' ∈ ((path, modTime) :: files.filter (·.1 ≠ path)).map Prod.fst ↔
      path' ∈ files.map Prod.fst ∨ path' = path := by
  by_cases hpath : path' = path
  · simp [hpath]
  · simp [hpath]

section Added

variable (h : Idle c entries done s tars current)

include h

theorem Idle.out_added (e : Entry) (input : List Entry) : ∃ outs, tars.flatMap entriesOf ++ outs = written c done ∧
    InEntry (current ++ (s.withEntry c e input).outputIo) outs (c.remap e.header) [] := by
  refine ⟨entriesOf (current ++ s.outputIo), h.out, ?_⟩
  rw [withEntry_outputIo, ← append_assoc]
  exact inEntry_header _ _ _

theorem Idle.files_added (e : Entry) (input : List Entry) (path : Text) :
    path ∈ (s.withEntry c e input).files.map Prod.fst ↔ path ∈ listed c (done ++ [(e, false)]) := by
  rw [listed_concat_false, mem_append, ← h.files path]
  cases hdir : e.isDir with
  | true =>
    rw [withEntry_dir hdir, if_pos rfl, or_iff_left not_mem_nil]
    rfl
  | false =>
    rw [withEntry_file hdir, mem_insertFile, if_neg Bool.false_ne_true, mem_singleton]

theorem Idle.tee_added (e : Entry) (input : List Entry) : (c.inTee e = true ∧
      InEntry (s.withEntry c e input).teeIo (teed c done) (c.remap e.header) [] ∧
      (s.withEntry c e input).teeTar.nb = e.data.length) ∨
    c.inTee e = false ∧ entriesOf (s.withEntry c e input).teeIo = teed c done ∧
      (s.withEntry c e input).teeTar.nb = 0 := by
  have hteeIo : (s.withEntry c e input).teeIo = if (c.remap e.header).name ∈ c.tee then
      s.teeIo ++ (replicate s.teeTar.pad .zero ++ headerBlock (c.remap e.header)) else s.teeIo := by
    cases hdir : e.isDir with
    | true => rw [withEntry_dir hdir]; rfl
    | false => rw [withEntry_file hdir]; rfl
  have hteeTar : (s.withEntry c e input).teeTar = if (c.remap e.header).name ∈ c.tee then
      ⟨e.data.length, TarWriter.blockPadding e.data.length⟩ else s.teeTar := by
    cases hdir : e.isDir with
    | true => rw [withEntry_dir hdir]; rfl
    | false => rw [withEntry_file hdir]; rfl
  rw [hteeIo, hteeTar]
  by_cases hmem : (c.remap e.header).name ∈ c.tee
  · rw [if_pos hmem, if_pos hmem, ← h.tee]
    exact .inl ⟨decide_eq_true hmem, inEntry_header _ _ _, rfl⟩
  · rw [if_neg hmem, if_neg hmem]
    exact .inr ⟨decide_eq_false hmem, h.tee, h.teeWriter⟩

theorem Idle.added_dir (hdir : e.isDir = true) (hplan : splitPlan c s.tarFileReadIndex s.input =
      (e, false) :: splitPlan c (s.tarFileReadIndex + e.data.length) input) :
    Idle c entries (done ++ [(e, false)]) { s.withEntry c e input with curHeader := none } tars current := by
  have hdata := e.dir_empty hdir
  obtain ⟨outs, houts, hentry⟩ := h.out_added e input
  exact {
    running := by rw [withEntry_dir hdir]; exact h.running
    plan := by
      rw [withEntry_dir hdir, h.plan, hplan, hdata, append_assoc]
      rfl
    header := rfl
    remaining := by rw [withEntry_dir hdir]; exact hdata
    buffer := by rw [withEntry_dir hdir]; exact h.buffer
    out := by
      rw [hentry.entriesOf_eq, ← append_assoc, houts, written_concat, Config.out, hdata]
    writer := by
      intro w hw
      rw [withEntry_dir hdir] at hw
      rw [← Option.some.inj hw, size_remap, hdata, length_nil]
    fresh := by
      rw [withEntry_dir hdir]
      exact nofun
    files := h.files_added e input
    teeing := by
      rw [withEntry_dir hdir, lastTeed_concat_false]
      rfl
    tee := by
      rw [teed_concat_false]
      rcases h.tee_added e input with ⟨hin, htee, -⟩ | ⟨hin, htee, -⟩
      · rw [htee.entriesOf_eq, hin, if_pos rfl, Config.out, hdata]
      · rw [htee, hin, if_neg Bool.false_ne_true, append_nil]
    teeWriter := by
      rcases h.tee_added e input with ⟨-, -, hnb⟩ | ⟨-, -, hnb⟩
      · rw [hnb, hdata, length_nil]
      · exact hnb
    clean := h.clean.concat_false }

theorem Idle.added_file (hdir : e.isDir = false) (hplan : splitPlan c s.tarFileReadIndex s.input =
      (e, false) :: splitPlan c (s.tarFileReadIndex + e.data.length) input) :
    Filling c entries done e false [] e.data (s.withEntry c e input) tars current where
  running := by rw [withEntry_file hdir]; exact h.running
  plan := by
    rw [withEntry_file hdir, h.plan, hplan]
    rfl
  file := hdir
  data := rfl
  header := by rw [withEntry_file hdir]; rfl
  remaining := by rw [withEntry_file hdir]; rfl
  index := by rw [withEntry_file hdir]; rfl
  buffer := by rw [withEntry_file hdir]; exact h.buffer
  out := h.out_added e input
  writer := ⟨_, by rw [withEntry_file hdir]; rfl, rfl⟩
  files := h.files_added e input
  teeing := by
    rw [withEntry_file hdir, lastTeed_concat_false]
    rfl
  tee := by
    rcases h.tee_added e input with ⟨hin, htee, hnb⟩ | ⟨hin, htee, hnb⟩
    · exact .inl ⟨rfl, hin, htee, hnb⟩
    · refine .inr ⟨?_, hnb, fun hteeing => ?_⟩
      · rw [htee, teed_concat_false, hin, if_neg Bool.false_ne_true, append_nil]
      · rw [withEntry_file hdir] at hteeing
        exact absurd (hin.symm.trans hteeing) Bool.false_ne_true
  clean := h.clean.concat_false

/-- An entry that is too large for the open tar ends it. -/
theorem Idle.finish (hio : s.outputIo = []) (n : ℕ)
    (hplan : splitPlan c s.tarFileReadIndex s.input = (e, true) :: splitPlan c 0 input) :
    ∃ cells, (s.taken c e input).finishTar n = ((s.taken c e input).withoutTar, cells, some .eof) ∧
      Waiting c entries done e (s.taken c e input).withoutTar (tars ++ [current ++ cells]) := by
  have hclose : (s.outputTar.getD .new).close =
      .ok (replicate (s.outputTar.getD .new).pad .zero ++ replicate 1024 .zero) :=
    if_neg (not_not.mpr h.getD_nb)
  have hzeros : ∃ k, (replicate (s.outputTar.getD .new).pad Cell.zero ++ replicate 1024 Cell.zero).take n =
      replicate k Cell.zero := by
    rw [← replicate_add, take_replicate]
    exact ⟨_, rfl⟩
  obtain ⟨k, hk⟩ := hzeros
  refine ⟨replicate k .zero, ?_, ?_⟩
  · rw [Streamer.finishTar, Streamer.taken]
    dsimp only
    rw [hclose]
    dsimp only
    rw [hio, nil_append, hk]
    rfl
  · exact {
      running := h.running
      plan := by rw [h.plan, hplan]; rfl
      header := rfl
      remaining := rfl
      index := rfl
      buffer := h.buffer
      closed := rfl
      drained := rfl
      out := by
        have hout := h.out
        rw [hio, append_nil] at hout
        rw [flatMap_append, flatMap_singleton, entriesOf_append_zeros, hout]
      files := h.files
      teeing := h.teeing
      tee := h.tee
      teeWriter := h.teeWriter
      clean := h.clean }

end Added

section Resume

variable (h : Waiting c entries done e s tars)

/-- The state in which the next tar has been opened with the header of its entry. -/
def Streamer.resumed (c : Config) (s : Streamer) (e : Entry) : Streamer :=
  { s with
    tarFileReadIndex := 0
    outputTar := some ⟨e.data.length, TarWriter.blockPadding e.data.length⟩
    outputIo := headerBlock (c.remap e.header) }

theorem inEntry_resumed : InEntry ([] ++ (s.resumed c e).outputIo) [] (c.remap e.header) [] :=
  inEntry_header [] 0 (c.remap e.header)

include h

theorem Waiting.nextInputFile : s.nextInputFile c = (s.resumed c e, some .headerAlreadySet) := by
  rw [Streamer.nextInputFile, Streamer.openOutput_waiting h.header h.closed, Streamer.resumed]
  simp only [h.header, h.drained, nil_append, size_remap]

theorem Waiting.resume_dir (hdir : e.isDir = true) :
    Idle c entries (done ++ [(e, true)]) { s.resumed c e with curHeader := none } tars [] where
  running := h.running
  plan := by
    rw [h.plan, append_assoc]
    rfl
  header := rfl
  remaining := h.remaining.trans (e.dir_empty hdir)
  buffer := h.buffer
  out := by
    rw [inEntry_resumed.entriesOf_eq, h.out, written_concat, Config.out, e.dir_empty hdir, nil_append]
  writer := by
    intro w hw
    rw [← Option.some.inj hw, e.dir_empty hdir, length_nil]
  fresh := nofun
  files := by rw [listed_concat_true]; exact h.files
  teeing := by rw [lastTeed_concat_true]; exact h.teeing
  tee := by rw [teed_concat_true]; exact h.tee
  teeWriter := h.teeWriter
  clean := h.clean.concat_true fun _ => e.dir_empty hdir

theorem Waiting.resume_file (hdir : e.isDir = false) (htee : lastTeed c done = true → e.data = []) :
    Filling c entries done e true [] e.data (s.resumed c e) tars [] where
  running := h.running
  plan := h.plan
  file := hdir
  data := rfl
  header := h.header
  remaining := h.remaining
  index := h.index
  buffer := h.buffer
  out := ⟨[], by rw [h.out, append_nil], inEntry_resumed⟩
  writer := ⟨_, rfl, rfl⟩
  files := by rw [listed_concat_true]; exact h.files
  teeing := by rw [lastTeed_concat_true]; exact h.teeing
  tee := by
    rw [teed_concat_true]
    exact .inr ⟨h.tee, h.teeWriter, fun hteeing => htee (h.teeing ▸ hteeing)⟩
  clean := h.clean.concat_true htee

/-- The copy goes on from the entry before, but its data do not belong to the tee tar. -/
theorem Waiting.resume_tooLong (hdir : e.isDir = false) (htee : lastTeed c done = true) (hne : e.data ≠ []) :
    ∃ s', (s.resumed c e).pump = (s', some .writeTooLong) := by
  have hsize : (s.resumed c e).fileReadIndex + (s.resumed c e).remaining.length = (c.remap e.header).size := by
    change s.fileReadIndex + s.remaining.length = e.data.length
    rw [h.index, h.remaining, Nat.zero_add]
  refine Streamer.pump_tooLong h.header hdir h.buffer hsize rfl ?_ (h.teeing.trans htee) h.teeWriter ?_
  · exact congrArg length h.remaining.symm
  · exact fun hnil => hne (h.remaining.symm.trans hnil)

end Resume

end WalG.Tarball
