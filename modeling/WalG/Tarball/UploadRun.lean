import WalG.Tarball.Pull

/-! # Streaming all entries

Every read with a buffer that is not empty brings the stream nearer to its end, and a read with an
empty one takes nothing back.
-/
namespace WalG.Tarball
open Foundation List

/-- A bound for the reads still needed. -/
def Streamer.work (s : Streamer) : ℕ :=
  s.outputIo.length + s.outputTar.elim 0 TarWriter.pad + 2 * s.remaining.length +
    (if s.curHeader.isSome ∧ s.outputTar = none then 2000 else 0) +
    (s.input.map fun e => 2 * e.data.length + 4000).sum

section Work

variable {c : Config} {s : Streamer} {e : Entry} {input : List Entry}

theorem work_drain (n : ℕ) (hio : s.outputIo ≠ []) :
    { s with outputIo := s.outputIo.drop n }.work + min n 1 ≤ s.work := by
  have hpos : 0 < s.outputIo.length := length_pos_iff.mpr hio
  simp only [Streamer.work, length_drop]
  omega

theorem blockPadding_lt (size : ℕ) : TarWriter.blockPadding size < 512 := Nat.mod_lt _ (by decide)

theorem work_withEntry (hinput : s.input = e :: input) (hrem : s.remaining = []) (hio : s.outputIo = [])
    (hcur : s.curHeader = none) : (s.withEntry c e input).work ≤ s.work := by
  have hpad := blockPadding_lt e.data.length
  have hold : (s.outputTar.getD .new).pad = s.outputTar.elim 0 TarWriter.pad := by
    cases s.outputTar <;> rfl
  have hwork : (s.withEntry c e input).work = (replicate (s.outputTar.getD .new).pad Cell.zero ++
      headerBlock (c.remap e.header)).length + TarWriter.blockPadding e.data.length + 2 * e.data.length +
      (input.map fun e => 2 * e.data.length + 4000).sum := by
    cases hdir : e.isDir with
    | true =>
      rw [withEntry_dir hdir]
      simp [Streamer.work, Streamer.withHeader, Streamer.taken, hio, size_remap]
    | false =>
      rw [withEntry_file hdir]
      simp [Streamer.work, Streamer.withHeader, Streamer.taken, hio, size_remap]
  rw [hwork, Streamer.work, hinput, hrem, hio, hcur, hold.symm]
  simp only [headerBlock, length_append, length_replicate, length_cons, map_cons, sum_cons, length_nil]
  omega

theorem work_afterPump {h : Header} {w : TarWriter} (hw : s.outputTar = some w) : (s.afterPump h w).work ≤ s.work := by
  simp only [Streamer.work, Streamer.afterPump, hw, length_append, length_map, length_take,
    length_drop, reduceCtorEq, and_false, if_false, Option.elim_some]
  omega

theorem work_header_none (s : Streamer) : { s with curHeader := none }.work ≤ s.work := by
  simp only [Streamer.work, Option.isSome_none, Bool.false_eq_true, false_and, if_false]
  omega

theorem work_withoutTar (hinput : s.input = e :: input) (hio : s.outputIo = []) :
    (s.taken c e input).withoutTar.work < s.work := by
  simp only [Streamer.work, Streamer.withoutTar, Streamer.taken, hinput, hio, length_nil, Option.elim_none,
    Option.isSome_some, true_and, if_true, map_cons, sum_cons]
  omega

theorem work_resumed (hrem : s.remaining = e.data) (hio : s.outputIo = []) (hcur : s.curHeader.isSome = true)
    (htar : s.outputTar = none) : (s.resumed c e).work ≤ s.work := by
  have hpad := blockPadding_lt e.data.length
  simp only [Streamer.work, Streamer.resumed, hrem, hio, hcur, htar, headerBlock, length_cons,
    length_replicate, length_nil, Option.elim_some, Option.elim_none, reduceCtorEq, and_false,
    and_true, if_false, if_true]
  omega

end Work

section Read

variable {c : Config} {s s' : Streamer} {n : ℕ}

theorem read_drain (hio : s.outputIo ≠ []) :
    s.read c n = ({ s with outputIo := s.outputIo.drop n }, s.outputIo.take n, none) := by
  rw [Streamer.read, Streamer.pipeFileData, if_pos hio]
  dsimp only
  rw [Streamer.readOutput, if_pos hio]

theorem read_pulled (hpipe : s.pipeFileData c = (s', none) ∨ s.pipeFileData c = (s', some .inputIsDir))
    (hio : s'.outputIo ≠ []) :
    s.read c n = ({ s' with outputIo := s'.outputIo.drop n }, s'.outputIo.take n, none) := by
  have hout : s.read c n = s'.readOutput c n := by
    rw [Streamer.read]
    rcases hpipe with hpipe | hpipe
    · rw [hpipe]
    · rw [hpipe]
  rw [hout, Streamer.readOutput, if_pos hio]

end Read

variable (c : Config) (entries : List Entry)

/-- Where an upload can stand. -/
inductive Position : Transcript → Prop where
  | idle {done s tars current} (h : Idle c entries done s tars current) :
    Position ⟨s, tars, current, .reading⟩
  | filling {done e split start rest s tars current}
    (h : Filling c entries done e split start rest s tars current) (hrest : rest ≠ []) :
    Position ⟨s, tars, current, .reading⟩
  | waiting {done e s tars} (h : Waiting c entries done e s tars) : Position ⟨s, tars, [], .reading⟩
  | ended {s tars current} (out : tars.flatMap entriesOf = written c (splitPlan c 0 entries))
    (files : ∀ path, path ∈ s.files.map Prod.fst ↔ path ∈ listed c (splitPlan c 0 entries))
    (tee : entriesOf s.teeIo = teed c (splitPlan c 0 entries)) (clean : Clean c (splitPlan c 0 entries)) :
    Position ⟨s, tars, current, .ended⟩
  | failed {s tars current err} (dirty : ¬ Clean c (splitPlan c 0 entries)) :
    Position ⟨s, tars, current, .failed err⟩

/-- A read leads to a position, and to one with less work while the stream goes on. -/
def Advances (n : ℕ) (t : Transcript) : Prop :=
  Position c entries (t.readNext c n) ∧
    ((t.readNext c n).status = .reading → (t.readNext c n).streamer.work + min n 1 ≤ t.streamer.work)

variable {c entries} {done : List (Entry × Bool)} {e : Entry} {split : Bool} {start rest : Bytes} {s s' : Streamer}
  {tars : List (List Cell)} {current : List Cell} {n : ℕ}

theorem advances_drain (hio : s.outputIo ≠ []) (hpos : Position c entries
      ⟨{ s with outputIo := s.outputIo.drop n }, tars, current ++ s.outputIo.take n, .reading⟩) :
    Advances c entries n ⟨s, tars, current, .reading⟩ := by
  rw [Advances, Transcript.readNext]
  rw [read_drain hio]
  exact ⟨hpos, fun _ => work_drain n hio⟩

/-- A read that pulled advances if what it pulled does. -/
theorem advances_pulled (hpipe : s.pipeFileData c = (s', none) ∨ s.pipeFileData c = (s', some .inputIsDir))
    (hio : s'.outputIo ≠ []) (hwork : s'.work ≤ s.work) (hpos : Position c entries
      ⟨{ s' with outputIo := s'.outputIo.drop n }, tars, current ++ s'.outputIo.take n, .reading⟩) :
    Advances c entries n ⟨s, tars, current, .reading⟩ := by
  rw [Advances, Transcript.readNext]
  rw [read_pulled hpipe hio]
  exact ⟨hpos, fun _ => (work_drain n hio).trans hwork⟩

theorem Filling.step (h : Filling c entries done e split start rest s' tars current)
    (hpipe : s.pipeFileData c = s'.pump) (hwork : s'.work ≤ s.work) (hio : s'.outputIo ≠ [] ∨ rest ≠ []) :
    Advances c entries n ⟨s, tars, current, .reading⟩ := by
  obtain ⟨w, hnb, hw, hpump⟩ := h.pump
  have hio' : (s'.afterPump (c.remap e.header) w).outputIo ≠ [] := by
    intro hnil
    obtain ⟨hold, hnew⟩ := append_eq_nil_iff.mp hnil
    rcases hio with hio | hrest
    · exact hio hold
    · rw [map_eq_nil_iff, h.remaining, take_eq_nil_iff] at hnew
      exact hnew.elim (by decide) hrest
  refine advances_pulled (.inl (hpipe.trans hpump)) hio' ((work_afterPump hw).trans hwork) ?_
  by_cases hend : rest.drop ioBufSize = []
  · exact .idle ((h.pump_end w hend hnb).drain n)
  · exact .filling ((h.pump_on w hend hnb).drain n) hend

section Steps

variable {input : List Entry}

theorem withEntry_outputIo_ne_nil (s : Streamer) (e : Entry) (input : List Entry) :
    (s.withEntry c e input).outputIo ≠ [] := by
  intro hnil
  rw [withEntry_outputIo, append_eq_nil_iff, append_eq_nil_iff] at hnil
  exact absurd hnil.2.2 (cons_ne_nil _ _)

theorem Idle.step_added (h : Idle c entries done s tars current) (hio : s.outputIo = [])
    (hinput : s.input = e :: input) (hplan : splitPlan c s.tarFileReadIndex s.input =
      (e, false) :: splitPlan c (s.tarFileReadIndex + e.data.length) input)
    (hnext : s.nextInputFile c = (s.taken c e input).addFile c (c.remap e.header)) :
    Advances c entries n ⟨s, tars, current, .reading⟩ := by
  have hpipe := Streamer.pipeFileData_pump hio (.inl (hnext.trans h.addFile))
  have hwork : (s.withEntry c e input).work ≤ s.work := work_withEntry hinput h.remaining hio h.header
  cases hdir : e.isDir with
  | true =>
    have hcur : (s.withEntry c e input).curHeader = some (c.remap e.header) := by
      rw [withEntry_dir hdir]
      rfl
    rw [Streamer.pump_dir hcur hdir] at hpipe
    exact advances_pulled (.inr hpipe) (withEntry_outputIo_ne_nil s e input) ((work_header_none _).trans hwork)
      (.idle ((h.added_dir hdir hplan).drain n))
  | false => exact (h.added_file hdir hplan).step hpipe hwork (.inl (withEntry_outputIo_ne_nil s e input))

theorem Idle.step_split (h : Idle c entries done s tars current) (hio : s.outputIo = [])
    (hinput : s.input = e :: input) (hplan : splitPlan c s.tarFileReadIndex s.input = (e, true) :: splitPlan c 0 input)
    (hnext : s.nextInputFile c = (s.taken c e input, some .outputEOF)) :
    Advances c entries n ⟨s, tars, current, .reading⟩ := by
  obtain ⟨cells, hfinish, hwaiting⟩ := h.finish hio n hplan
  have hread : s.read c n = (s.taken c e input).finishTar n := by
    rw [Streamer.read, Streamer.pipeFileData_error hio hnext (by decide)]
  rw [Advances, Transcript.readNext]
  rw [hread, hfinish]
  dsimp only
  have hrunning : ¬ (s.taken c e input).withoutTar.inputEnded = true :=
    Bool.eq_false_iff.mp h.running
  rw [if_neg hrunning]
  have hwork := work_withoutTar (c := c) hinput hio
  exact ⟨.waiting hwaiting, fun _ => by omega⟩

theorem Idle.step_end (h : Idle c entries done s tars current) (hio : s.outputIo = []) (hinput : s.input = []) :
    Position c entries (Transcript.readNext c ⟨s, tars, current, .reading⟩ n) ∧
      (Transcript.readNext c ⟨s, tars, current, .reading⟩ n).status = .ended := by
  have hread : s.read c n =
      ({ s with outputTar := some (s.outputTar.getD .new), inputEnded := true }, [], some .eof) := by
    rw [Streamer.read, Streamer.pipeFileData_error hio (h.nextInputFile_end hinput) (by decide)]
  have hplan := h.plan
  have hout := h.out
  rw [hinput, splitPlan, append_nil] at hplan
  rw [hio, append_nil] at hout
  rw [Transcript.readNext]
  rw [hread]
  dsimp only
  rw [if_pos rfl, append_nil]
  refine ⟨.ended ?_ ?_ ?_ ?_, rfl⟩
  · rw [flatMap_append, flatMap_singleton, hout, hplan]
  · rw [hplan]
    exact h.files
  · rw [hplan]
    exact h.tee
  · rw [hplan]
    exact h.clean

theorem Idle.step (h : Idle c entries done s tars current) : Advances c entries n ⟨s, tars, current, .reading⟩ := by
  by_cases hio : s.outputIo = []
  · cases hinput : s.input with
    | nil =>
      obtain ⟨hpos, hended⟩ := h.step_end (n := n) hio hinput
      refine ⟨hpos, fun hreading => ?_⟩
      cases hended.symm.trans hreading
    | cons e input =>
      have hnext := h.nextInputFile hinput
      have hplan : splitPlan c s.tarFileReadIndex s.input = splitPlan c s.tarFileReadIndex (e :: input) := by
        rw [hinput]
      rw [splitPlan] at hplan
      by_cases hlarge : s.tarFileReadIndex = 0 ∧ c.maxTarSize ≤ e.data.length
      · rw [if_pos hlarge] at hnext hplan
        exact h.step_added hio hinput hplan hnext
      · rw [if_neg hlarge] at hnext hplan
        by_cases hfull : c.maxTarSize ≤ s.tarFileReadIndex + e.data.length
        · rw [if_pos hfull] at hnext hplan
          exact h.step_split hio hinput hplan hnext
        · rw [if_neg hfull] at hnext hplan
          exact h.step_added hio hinput hplan hnext
  · exact advances_drain hio (.idle (h.drain n))

theorem Filling.step_on (h : Filling c entries done e split start rest s tars current) (hrest : rest ≠ []) :
    Advances c entries n ⟨s, tars, current, .reading⟩ := by
  by_cases hio : s.outputIo = []
  · obtain ⟨w, hw, -⟩ := h.writer
    have hnext : s.nextInputFile c = (s, some .headerAlreadySet) := by
      rw [Streamer.nextInputFile, Streamer.openOutput_open hw]
      dsimp only
      rw [h.header]
    exact h.step (Streamer.pipeFileData_pump hio (.inr hnext)) le_rfl (.inr hrest)
  · exact advances_drain hio (.filling (h.drain n) hrest)

theorem Waiting.step (h : Waiting c entries done e s tars) : Advances c entries n ⟨s, tars, [], .reading⟩ := by
  have hpipe := Streamer.pipeFileData_pump h.drained (.inr h.nextInputFile)
  have hwork : (s.resumed c e).work ≤ s.work :=
    work_resumed h.remaining h.drained (by rw [h.header]; rfl) h.closed
  have hio : (s.resumed c e).outputIo ≠ [] := cons_ne_nil _ _
  cases hdir : e.isDir with
  | true =>
    have hcur : (s.resumed c e).curHeader = some (c.remap e.header) := h.header
    rw [Streamer.pump_dir hcur hdir] at hpipe
    exact advances_pulled (.inr hpipe) hio ((work_header_none _).trans hwork)
      (.idle ((h.resume_dir hdir).drain n))
  | false =>
    by_cases htee : lastTeed c done = true → e.data = []
    · exact (h.resume_file hdir htee).step hpipe hwork (.inl hio)
    · rw [Classical.not_imp] at htee
      obtain ⟨s', hpump⟩ := h.resume_tooLong hdir htee.1 htee.2
      have hread : s.read c n = (s', [], some .writeTooLong) := by
        rw [Streamer.read, hpipe.trans hpump]
      rw [Advances, Transcript.readNext]
      rw [hread]
      refine ⟨.failed fun hclean => ?_, nofun⟩
      exact htee.2 (hclean done e _ h.plan htee.1)

theorem Position.step {t : Transcript} (h : Position c entries t) : Advances c entries n t := by
  cases h with
  | idle h => exact h.step
  | filling h hrest => exact h.step_on hrest
  | waiting h => exact h.step
  | ended out files tee clean => exact ⟨.ended out files tee clean, nofun⟩
  | failed dirty => exact ⟨.failed dirty, nofun⟩

end Steps

end WalG.Tarball
