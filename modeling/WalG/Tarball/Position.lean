import WalG.Tarball.SplitPlan

/-! # Where a stream stands

Between two reads a stream stands between two entries, within the data of a file, or before an entry
that opens the next tar.
-/
namespace WalG.Tarball
open Foundation List

variable (c : Config) (entries : List Entry)

/-- No entry with data opened a tar after an entry that was copied. -/
def Clean (done : List (Entry × Bool)) : Prop :=
  ∀ before e after, done = before ++ (e, true) :: after → lastTeed c before = true → e.data = []

/-- Between two entries. -/
structure Idle (done : List (Entry × Bool)) (s : Streamer) (tars : List (List Cell)) (current : List Cell) :
    Prop where
  running : s.inputEnded = false
  plan : splitPlan c 0 entries = done ++ splitPlan c s.tarFileReadIndex s.input
  header : s.curHeader = none
  remaining : s.remaining = []
  buffer : s.inputBuf.length ≤ s.bufReadIndex
  out : tars.flatMap entriesOf ++ entriesOf (current ++ s.outputIo) = written c done
  writer : ∀ w, s.outputTar = some w → w.nb = 0
  fresh : s.outputTar = none → s.tarFileReadIndex = 0
  files : ∀ path, path ∈ s.files.map Prod.fst ↔ path ∈ listed c done
  teeing : s.teeing = lastTeed c done
  tee : entriesOf s.teeIo = teed c done
  teeWriter : s.teeTar.nb = 0
  clean : Clean c done

/-- In a file of which some data have been read. -/
structure Filling (done : List (Entry × Bool)) (e : Entry) (split : Bool) (start rest : Bytes) (s : Streamer)
    (tars : List (List Cell)) (current : List Cell) : Prop where
  running : s.inputEnded = false
  plan : splitPlan c 0 entries = done ++ (e, split) :: splitPlan c s.tarFileReadIndex s.input
  file : e.isDir = false
  data : e.data = start ++ rest
  header : s.curHeader = some (c.remap e.header)
  remaining : s.remaining = rest
  index : s.fileReadIndex = start.length
  buffer : s.inputBuf.length ≤ s.bufReadIndex
  out : ∃ outs, tars.flatMap entriesOf ++ outs = written c done ∧
    InEntry (current ++ s.outputIo) outs (c.remap e.header) start
  writer : ∃ w, s.outputTar = some w ∧ w.nb = rest.length
  files : ∀ path, path ∈ s.files.map Prod.fst ↔ path ∈ listed c (done ++ [(e, split)])
  teeing : s.teeing = lastTeed c (done ++ [(e, split)])
  tee : (split = false ∧ c.inTee e = true ∧ InEntry s.teeIo (teed c done) (c.remap e.header) start ∧
      s.teeTar.nb = rest.length) ∨
    entriesOf s.teeIo = teed c (done ++ [(e, split)]) ∧ s.teeTar.nb = 0 ∧ (s.teeing = true → rest = [])
  clean : Clean c (done ++ [(e, split)])

/-- Before an entry that opens the next tar. -/
structure Waiting (done : List (Entry × Bool)) (e : Entry) (s : Streamer) (tars : List (List Cell)) : Prop where
  running : s.inputEnded = false
  plan : splitPlan c 0 entries = done ++ (e, true) :: splitPlan c 0 s.input
  header : s.curHeader = some (c.remap e.header)
  remaining : s.remaining = e.data
  index : s.fileReadIndex = 0
  buffer : s.inputBuf.length ≤ s.bufReadIndex
  closed : s.outputTar = none
  drained : s.outputIo = []
  out : tars.flatMap entriesOf = written c done
  files : ∀ path, path ∈ s.files.map Prod.fst ↔ path ∈ listed c done
  teeing : s.teeing = lastTeed c done
  tee : entriesOf s.teeIo = teed c done
  teeWriter : s.teeTar.nb = 0
  clean : Clean c done

variable {c entries} {done : List (Entry × Bool)} {e : Entry} {split : Bool} {start rest : Bytes} {s : Streamer}
  {tars : List (List Cell)} {current : List Cell}

theorem concat_eq_append_cons {α : Type} {l before after : List α} {x y : α} (h : l ++ [x] = before ++ y :: after) :
    before = l ∧ y = x ∨ ∃ after', l = before ++ y :: after' := by
  rcases eq_nil_or_concat after with rfl | ⟨after', z, rfl⟩
  · obtain ⟨hl, hx⟩ := append_inj' h rfl
    exact .inl ⟨hl.symm, (cons.inj hx).1.symm⟩
  · rw [concat_eq_append, ← cons_append, ← append_assoc] at h
    exact .inr ⟨after', (append_inj' h rfl).1⟩

theorem Clean.concat_false (h : Clean c done) : Clean c (done ++ [(e, false)]) := by
  intro before e' after heq hlast
  rcases concat_eq_append_cons heq with ⟨-, hpair⟩ | ⟨after', hdone⟩
  · cases hpair
  · exact h before e' after' hdone hlast

theorem Clean.concat_true (h : Clean c done) (he : lastTeed c done = true → e.data = []) :
    Clean c (done ++ [(e, true)]) := by
  intro before e' after heq hlast
  rcases concat_eq_append_cons heq with ⟨rfl, hpair⟩ | ⟨after', hdone⟩
  · rw [(Prod.mk.inj hpair).1]
    exact he hlast
  · exact h before e' after' hdone hlast

theorem current_drain (n : ℕ) : (current ++ s.outputIo.take n) ++ s.outputIo.drop n = current ++ s.outputIo := by
  rw [append_assoc, take_append_drop]

theorem Idle.drain (h : Idle c entries done s tars current) (n : ℕ) :
    Idle c entries done { s with outputIo := s.outputIo.drop n } tars (current ++ s.outputIo.take n) :=
  { h with out := by rw [current_drain]; exact h.out }

theorem Filling.drain (h : Filling c entries done e split start rest s tars current) (n : ℕ) :
    Filling c entries done e split start rest { s with outputIo := s.outputIo.drop n } tars
      (current ++ s.outputIo.take n) :=
  { h with out := by rw [current_drain]; exact h.out }

theorem size_remap (e : Entry) : (c.remap e.header).size = e.data.length := rfl

theorem isDir_remap (e : Entry) : (c.remap e.header).isDir = e.isDir := rfl

section Pump

variable (h : Filling c entries done e split start rest s tars current) (w : TarWriter)

include h

theorem Filling.tee_pump : (split = false ∧ c.inTee e = true ∧
      InEntry (s.afterPump (c.remap e.header) w).teeIo (teed c done) (c.remap e.header)
        (start ++ rest.take ioBufSize) ∧ (s.afterPump (c.remap e.header) w).teeTar.nb = (rest.drop ioBufSize).length) ∨
    entriesOf (s.afterPump (c.remap e.header) w).teeIo = teed c (done ++ [(e, split)]) ∧
      (s.afterPump (c.remap e.header) w).teeTar.nb = 0 ∧ (s.teeing = true → rest.drop ioBufSize = []) := by
  have hteeIo : (s.afterPump (c.remap e.header) w).teeIo =
      if s.teeing then s.teeIo ++ (s.remaining.take ioBufSize).map .data else s.teeIo := rfl
  have hteeTar : (s.afterPump (c.remap e.header) w).teeTar.nb =
      if s.teeing then s.teeTar.nb - (s.remaining.take ioBufSize).length else s.teeTar.nb := by
    rw [Streamer.afterPump]
    split_ifs <;> rfl
  rw [hteeIo, hteeTar, h.remaining]
  rcases h.tee with ⟨hsplit, hin, hentry, hnb⟩ | ⟨hentries, hnb, hrest⟩
  · have hteeing : s.teeing = true := by rw [h.teeing, hsplit, lastTeed_concat_false, hin]
    rw [hteeing, if_pos rfl, if_pos rfl, hnb, length_take, length_drop]
    exact .inl ⟨hsplit, hin, hentry.append _, by omega⟩
  · cases hteeing : s.teeing with
    | false => exact .inr ⟨hentries, hnb, fun h => absurd h Bool.false_ne_true⟩
    | true =>
      rw [if_pos rfl, if_pos rfl, hrest hteeing, hnb]
      simp only [take_nil, map_nil, append_nil, length_nil, drop_nil]
      exact .inr ⟨hentries, trivial, fun _ => trivial⟩

theorem Filling.out_pump : ∃ outs, tars.flatMap entriesOf ++ outs = written c done ∧
    InEntry (current ++ (s.afterPump (c.remap e.header) w).outputIo) outs (c.remap e.header)
      (start ++ rest.take ioBufSize) := by
  obtain ⟨outs, houts, hentry⟩ := h.out
  refine ⟨outs, houts, ?_⟩
  rw [Streamer.afterPump, h.remaining]
  rw [← append_assoc]
  exact hentry.append _

theorem Filling.pump_end (hend : rest.drop ioBufSize = []) (hnb : w.nb = rest.length) :
    Idle c entries (done ++ [(e, split)]) (s.afterPump (c.remap e.header) w) tars current := by
  have htake : rest.take ioBufSize = rest := by
    have hsplit := take_append_drop ioBufSize rest
    rwa [hend, append_nil] at hsplit
  have hdata : start ++ rest.take ioBufSize = e.data := by rw [htake, h.data]
  obtain ⟨outs, houts, hentry⟩ := h.out_pump w
  rw [hdata] at hentry
  exact {
    running := h.running
    plan := by
      rw [h.plan, append_assoc, singleton_append]
      rfl
    header := by rw [Streamer.afterPump, h.remaining]; exact if_pos hend
    remaining := by rw [Streamer.afterPump, h.remaining]; exact hend
    buffer := le_rfl
    out := by
      rw [hentry.entriesOf_eq, ← append_assoc, houts, written_concat]
      rfl
    writer := by
      intro w' hw'
      rw [Streamer.afterPump, h.remaining, htake, hnb, Nat.sub_self] at hw'
      rw [← Option.some.inj hw']
    fresh := nofun
    files := h.files
    teeing := h.teeing
    tee := by
      rcases h.tee_pump w with ⟨hsplit, hin, htee, -⟩ | ⟨htee, -, -⟩
      · rw [htee.entriesOf_eq, hdata, hsplit, teed_concat_false, hin, if_pos rfl]
        rfl
      · exact htee
    teeWriter := by
      rcases h.tee_pump w with ⟨-, -, -, hteeNb⟩ | ⟨-, hteeNb, -⟩
      · rw [hteeNb, hend, length_nil]
      · exact hteeNb
    clean := h.clean }

theorem Filling.pump_on (hon : rest.drop ioBufSize ≠ []) (hnb : w.nb = rest.length) :
    Filling c entries done e split (start ++ rest.take ioBufSize) (rest.drop ioBufSize)
      (s.afterPump (c.remap e.header) w) tars current where
  running := h.running
  plan := h.plan
  file := h.file
  data := by rw [append_assoc, take_append_drop, h.data]
  header := by rw [Streamer.afterPump, h.remaining]; exact if_neg hon
  remaining := by rw [Streamer.afterPump, h.remaining]
  index := by rw [Streamer.afterPump, h.index, h.remaining, length_append]
  buffer := le_rfl
  out := h.out_pump w
  writer := by
    refine ⟨_, rfl, ?_⟩
    dsimp only
    rw [h.remaining, hnb, length_take, length_drop]
    omega
  files := h.files
  teeing := h.teeing
  tee := h.tee_pump w
  clean := h.clean

/-- The pump brings a file on or to its end. -/
theorem Filling.pump : ∃ w, w.nb = rest.length ∧ s.outputTar = some w ∧
    s.pump = (s.afterPump (c.remap e.header) w, none) := by
  obtain ⟨w, hw, hnb⟩ := h.writer
  have hsize : s.fileReadIndex + s.remaining.length = (c.remap e.header).size := by
    rw [h.index, h.remaining, size_remap, h.data, length_append]
  have htee : s.teeing = true → s.teeTar.nb = s.remaining.length := by
    intro hteeing
    rcases h.tee with ⟨-, -, -, hteeNb⟩ | ⟨-, hteeNb, hrest⟩
    · rw [hteeNb, h.remaining]
    · rw [hteeNb, h.remaining, hrest hteeing, length_nil]
  exact ⟨w, hnb, hw, Streamer.pump_file h.header h.file h.buffer hsize hw (by rw [hnb, h.remaining]) htee⟩

end Pump

end WalG.Tarball
