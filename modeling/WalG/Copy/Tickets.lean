import WalG.Copy.Infos
import WalG.Foundation.Interleaving

/-! # The goroutines of a copy

A goroutine gives its ticket back before it reports its result, so any number of them can wait to
report, while the channel of the results has room for sixteen and is not read once the loop is over.
-/
namespace WalG.Copy
open Foundation List

def maxParallelJobsCount : ℕ := 8

/-- An object, with the error that copying it ends with. -/
structure CopyJob (ε : Type) where
  handler : InfoProvider
  err : Option ε

/-- Where the main goroutine is: at the top of the loop, before it takes a ticket, in `wg.Wait`, or in the loop that
reads the last results. -/
inductive MainPhase (ε : Type) where
  | ranging
  | taking
  | waiting
  | collecting
  | returned (err : Option ε)

/-- The goroutines are grouped by what they do next. -/
structure InfosState (ε : Type) where
  chs : List (CopyJob ε)
  phase : MainPhase ε := .ranging
  tickets : ℕ := maxParallelJobsCount
  errors : List (Option ε) := []
  copying : List (CopyJob ε) := []
  returning : List (Option ε) := []
  reporting : List (Option ε) := []
  finishing : ℕ := 0

namespace InfosState

variable {ε : Type} (s : InfosState ε)

/-- The counter of the wait group. -/
def running : ℕ := s.copying.length + s.returning.length + s.reporting.length + s.finishing

/-- The main goroutine reads the results that are there. -/
def Draining : Prop := s.phase = .ranging ∧ s.chs ≠ [] ∨ s.phase = .collecting

def Returned : Prop := ∃ err, s.phase = .returned err

/-- No result that is still to be read is an error. -/
def NoErrorLeft : Prop :=
  (∀ ch ∈ s.chs, ch.err = none) ∧ (∀ ch ∈ s.copying, ch.err = none) ∧ (∀ err ∈ s.returning, err = none) ∧
    (∀ err ∈ s.reporting, err = none) ∧ ∀ err ∈ s.errors, err = none

/-- The results that are still to be read. -/
def outstanding : ℕ :=
  s.chs.length + s.copying.length + s.returning.length + s.reporting.length + s.errors.length

end InfosState

inductive InfosStep {ε : Type} (s : InfosState ε) : InfosState ε → Prop where
  | drain {rest} (hdraining : s.Draining) (herrors : s.errors = none :: rest) : InfosStep s { s with errors := rest }
  | fail {e rest} (hdraining : s.Draining) (herrors : s.errors = some e :: rest) :
    InfosStep s { s with phase := .returned (some e), errors := rest }
  | checked (hphase : s.phase = .ranging) (hchs : s.chs ≠ []) (herrors : s.errors = []) :
    InfosStep s { s with phase := .taking }
  | launch {ch chs} (hphase : s.phase = .taking) (hchs : s.chs = ch :: chs) (htickets : 0 < s.tickets) :
    InfosStep s { s with phase := .ranging, chs := chs, tickets := s.tickets - 1, copying := ch :: s.copying }
  | rangeDone (hphase : s.phase = .ranging) (hchs : s.chs = []) : InfosStep s { s with phase := .waiting }
  | waited (hphase : s.phase = .waiting) (hrunning : s.running = 0) : InfosStep s { s with phase := .collecting }
  | finish (hphase : s.phase = .collecting) (herrors : s.errors = []) : InfosStep s { s with phase := .returned none }
  | copied {before ch after} (hcopying : s.copying = before ++ ch :: after) :
    InfosStep s { s with copying := before ++ after, returning := ch.err :: s.returning }
  | giveBack {before err after} (hreturning : s.returning = before ++ err :: after)
    (hroom : s.tickets < maxParallelJobsCount) :
    InfosStep s { s with returning := before ++ after, tickets := s.tickets + 1, reporting := err :: s.reporting }
  | report {before err after} (hreporting : s.reporting = before ++ err :: after)
    (hroom : s.errors.length < maxParallelJobsCount * 2) :
    InfosStep s { s with
      reporting := before ++ after, errors := s.errors ++ [err], finishing := s.finishing + 1 }
  | done (hfinishing : 0 < s.finishing) : InfosStep s { s with finishing := s.finishing - 1 }

section Measure

variable {ε : Type}

def MainPhase.steps : MainPhase ε → ℕ
  | .ranging => 3
  | .taking => 2
  | .waiting => 2
  | .collecting => 1
  | .returned _ => 0

/-- A bound on the steps that are left. -/
def InfosState.steps (s : InfosState ε) : ℕ :=
  s.phase.steps + 7 * s.chs.length + 5 * s.copying.length + 4 * s.returning.length + 3 * s.reporting.length +
    s.errors.length + s.finishing

attribute [local simp] InfosState.steps MainPhase.steps

theorem InfosStep.steps_lt {s s' : InfosState ε} (h : InfosStep s s') : s'.steps < s.steps := by
  cases h with
  | drain _ herrors => simp [herrors]
  | fail _ hlist | copied hlist | giveBack hlist _ | report hlist _ =>
    simp [hlist]
    omega
  | launch hphase hchs _ =>
    simp [hphase, hchs]
    omega
  | checked hphase _ _ | rangeDone hphase _ | waited hphase _ | finish hphase _ => simp [hphase]
  | done hfinishing =>
    simp
    omega

end Measure

/-- Every ticket is in the channel or with a goroutine, and the result of the copy is none exactly if every object
was copied. -/
structure InfosInv {ε : Type} (jobs : List (CopyJob ε)) (s : InfosState ε) : Prop where
  tickets : s.tickets + s.copying.length + s.returning.length = maxParallelJobsCount
  outstanding : s.outstanding ≤ jobs.length
  taking : s.phase = .taking → s.chs ≠ []
  waiting : s.phase = .waiting ∨ s.phase = .collecting → s.chs = []
  collecting : s.phase = .collecting → s.running = 0
  noErrorLeft : ¬ s.Returned → (s.NoErrorLeft ↔ ∀ job ∈ jobs, job.err = none)
  returned : ∀ err, s.phase = .returned err → (err = none ↔ ∀ job ∈ jobs, job.err = none)

namespace InfosInv

variable {ε : Type} {jobs : List (CopyJob ε)} {s s' : InfosState ε}

theorem start (jobs : List (CopyJob ε)) : InfosInv jobs { chs := jobs } where
  tickets := rfl
  outstanding := le_rfl
  taking := nofun
  waiting := nofun
  collecting := nofun
  noErrorLeft _ := by simp [InfosState.NoErrorLeft]
  returned := nofun

theorem not_returned (hphase : s.phase = .ranging ∨ s.phase = .taking ∨ s.phase = .waiting ∨ s.phase = .collecting) :
    ¬ s.Returned := by
  rintro ⟨err, herr⟩
  rw [herr] at hphase
  simp at hphase

theorem not_returned_of_draining (h : s.Draining) : ¬ s.Returned := by
  rcases h with h | h
  · exact not_returned (.inl h.1)
  · exact not_returned (.inr (.inr (.inr h)))

theorem fail (h : InfosInv jobs s) {e : ε} {rest : List (Option ε)} (hdraining : s.Draining)
    (herrors : s.errors = some e :: rest) : ¬ ∀ job ∈ jobs, job.err = none := by
  rw [← h.noErrorLeft (not_returned_of_draining hdraining)]
  intro hnone
  have := hnone.2.2.2.2 (some e) (herrors ▸ mem_cons_self)
  cases this

theorem finish (h : InfosInv jobs s) (hphase : s.phase = .collecting) (herrors : s.errors = []) :
    ∀ job ∈ jobs, job.err = none := by
  have hrunning := h.collecting hphase
  have hlengths : s.copying.length = 0 ∧ s.returning.length = 0 ∧ s.reporting.length = 0 := by
    unfold InfosState.running at hrunning
    omega
  simp only [length_eq_zero_iff] at hlengths
  rw [← h.noErrorLeft (not_returned (.inr (.inr (.inr hphase)))), InfosState.NoErrorLeft, hlengths.1, hlengths.2.1,
    hlengths.2.2, h.waiting (.inr hphase), herrors]
  simp

attribute [local simp] InfosState.outstanding InfosState.running InfosState.NoErrorLeft

theorem step (h : InfosInv jobs s) (hstep : InfosStep s s') : InfosInv jobs s' := by
  have htickets := h.tickets
  have houtstanding := h.outstanding
  cases hstep with
  | drain hdraining herrors =>
    refine { h with outstanding := ?_, noErrorLeft := fun hreturned => ?_ }
    · simp [herrors] at houtstanding ⊢
      omega
    · rw [← h.noErrorLeft hreturned]
      simp [herrors]
  | fail hdraining herrors =>
    refine ⟨htickets, ?_, nofun, nofun, nofun, fun hreturned => absurd ⟨_, rfl⟩ hreturned, fun err herr => ?_⟩
    · simp [herrors] at houtstanding ⊢
      omega
    · cases herr
      exact iff_of_false (Option.some_ne_none _) (h.fail hdraining herrors)
  | checked hphase hchs herrors =>
    exact ⟨htickets, houtstanding, fun _ => hchs, nofun, nofun,
      fun _ => h.noErrorLeft (not_returned (.inl hphase)), nofun⟩
  | launch hphase hchs hpos =>
    refine ⟨?_, ?_, nofun, nofun, nofun, fun _ => ?_, nofun⟩
    · simp
      omega
    · simp [hchs] at houtstanding ⊢
      omega
    · rw [← h.noErrorLeft (not_returned (.inr (.inl hphase)))]
      simp [hchs]
      tauto
  | rangeDone hphase hchs =>
    exact ⟨htickets, houtstanding, nofun, fun _ => hchs, nofun,
      fun _ => h.noErrorLeft (not_returned (.inl hphase)), nofun⟩
  | waited hphase hrunning =>
    exact ⟨htickets, houtstanding, nofun, fun _ => h.waiting (.inl hphase), fun _ => hrunning,
      fun _ => h.noErrorLeft (not_returned (.inr (.inr (.inl hphase)))), nofun⟩
  | finish hphase herrors =>
    refine ⟨htickets, houtstanding, nofun, nofun, nofun, fun hreturned => absurd ⟨_, rfl⟩ hreturned, fun err herr => ?_⟩
    cases herr
    exact iff_of_true rfl (h.finish hphase herrors)
  | copied hlist | giveBack hlist _ | report hlist _ =>
    -- the result of one goroutine moves on to the next place
    refine { h with tickets := ?_, outstanding := ?_, collecting := fun hphase => ?_, noErrorLeft := fun hreturned => ?_ }
    · simp [hlist] at htickets ⊢
      omega
    · simp [hlist] at houtstanding ⊢
      omega
    · have hrunning := h.collecting hphase
      simp [hlist] at hrunning
    · rw [← h.noErrorLeft hreturned]
      simp only [InfosState.NoErrorLeft, hlist, forall_mem_append, forall_mem_cons]
      tauto
  | done hfinishing =>
    refine { h with collecting := fun hphase => ?_ }
    have hrunning := h.collecting hphase
    simp at hrunning ⊢
    omega

theorem of_reaches (hreach : Relation.ReflTransGen InfosStep { chs := jobs } s) : InfosInv jobs s :=
  invariant_of_steps (fun _ _ h hstep => h.step hstep) (start jobs) hreach

theorem exists_copied (h : s.copying ≠ []) : ∃ s', InfosStep s s' := by
  obtain ⟨ch, rest, hcopying⟩ := exists_cons_of_ne_nil h
  exact ⟨_, @InfosStep.copied _ _ [] _ _ hcopying⟩

theorem exists_giveBack (h : InfosInv jobs s) (hne : s.returning ≠ []) : ∃ s', InfosStep s s' := by
  obtain ⟨err, rest, hreturning⟩ := exists_cons_of_ne_nil hne
  have htickets := h.tickets
  rw [hreturning, length_cons] at htickets
  exact ⟨_, @InfosStep.giveBack _ _ [] _ _ hreturning (by omega)⟩

theorem exists_report (h : InfosInv jobs s) (hfew : jobs.length ≤ maxParallelJobsCount * 2) (hne : s.reporting ≠ []) :
    ∃ s', InfosStep s s' := by
  obtain ⟨err, rest, hreporting⟩ := exists_cons_of_ne_nil hne
  have houtstanding := h.outstanding
  rw [InfosState.outstanding, hreporting, length_cons] at houtstanding
  exact ⟨_, @InfosStep.report _ _ [] _ _ hreporting (by omega)⟩

theorem exists_drain (hdraining : s.Draining) (hne : s.errors ≠ []) : ∃ s', InfosStep s s' := by
  obtain ⟨err, rest, herrors⟩ := exists_cons_of_ne_nil hne
  cases err with
  | none => exact ⟨_, .drain hdraining herrors⟩
  | some e => exact ⟨_, .fail hdraining herrors⟩

/-- With room for the results of all objects some goroutine can go on until the copy returns. -/
theorem exists_step (h : InfosInv jobs s) (hfew : jobs.length ≤ maxParallelJobsCount * 2) (hreturned : ¬ s.Returned) :
    ∃ s', InfosStep s s' := by
  cases hphase : s.phase with
  | ranging =>
    by_cases hchs : s.chs = []
    · exact ⟨_, .rangeDone hphase hchs⟩
    · by_cases herrors : s.errors = []
      · exact ⟨_, .checked hphase hchs herrors⟩
      · exact exists_drain (.inl ⟨hphase, hchs⟩) herrors
  | taking =>
    by_cases hcopying : s.copying = []
    · by_cases hreturning : s.returning = []
      · obtain ⟨ch, chs, hchs⟩ := exists_cons_of_ne_nil (h.taking hphase)
        have htickets := h.tickets
        rw [hcopying, hreturning] at htickets
        exact ⟨_, .launch hphase hchs (by rw [show s.tickets = 8 from htickets]; decide)⟩
      · exact h.exists_giveBack hreturning
    · exact exists_copied hcopying
  | waiting =>
    by_cases hcopying : s.copying = []
    · by_cases hreturning : s.returning = []
      · by_cases hreporting : s.reporting = []
        · by_cases hfinishing : s.finishing = 0
          · exact ⟨_, .waited hphase (by rw [InfosState.running, hcopying, hreturning, hreporting, hfinishing]; rfl)⟩
          · exact ⟨_, .done (Nat.pos_of_ne_zero hfinishing)⟩
        · exact h.exists_report hfew hreporting
      · exact h.exists_giveBack hreturning
    · exact exists_copied hcopying
  | collecting =>
    by_cases herrors : s.errors = []
    · exact ⟨_, .finish hphase herrors⟩
    · exact exists_drain (.inr hphase) herrors
  | returned err => exact absurd ⟨err, hphase⟩ hreturned

end InfosInv

section Deadlock

variable {ε : Type}

/-- No goroutine reports before the last object has its ticket. -/
theorem reaches_launched (jobs : List (CopyJob ε)) (reporting : List (Option ε)) :
    Relation.ReflTransGen InfosStep { chs := jobs, reporting := reporting }
      { chs := [], reporting := (jobs.map CopyJob.err).reverse ++ reporting } := by
  induction jobs generalizing reporting with
  | nil => exact .refl
  | cons job jobs ih =>
    have hchecked : InfosStep { chs := job :: jobs, reporting := reporting }
        { chs := job :: jobs, phase := .taking, reporting := reporting } := .checked rfl (cons_ne_nil _ _) rfl
    have hlaunch : InfosStep { chs := job :: jobs, phase := .taking, reporting := reporting }
        { chs := jobs, tickets := 7, copying := [job], reporting := reporting } := .launch rfl rfl (Nat.succ_pos 7)
    have hcopied : InfosStep { chs := jobs, tickets := 7, copying := [job], reporting := reporting }
        { chs := jobs, tickets := 7, returning := [job.err], reporting := reporting } :=
          @InfosStep.copied _ _ [] _ _ rfl
    have hgiveBack : InfosStep { chs := jobs, tickets := 7, returning := [job.err], reporting := reporting }
        { chs := jobs, reporting := job.err :: reporting } := @InfosStep.giveBack _ _ [] _ _ rfl (Nat.lt_succ_self 7)
    have hrest := ih (job.err :: reporting)
    rw [map_cons, reverse_cons, append_assoc]
    exact .head hchecked (.head hlaunch (.head hcopied (.head hgiveBack hrest)))

/-- The goroutines that report while there is room. -/
theorem reaches_reported (reported reporting errors : List (Option ε))
    (hroom : errors.length + reported.length ≤ maxParallelJobsCount * 2) :
    Relation.ReflTransGen InfosStep
      { chs := [], phase := .waiting, errors := errors, reporting := reported ++ reporting }
      { chs := [], phase := .waiting, errors := errors ++ reported, reporting := reporting } := by
  induction reported generalizing errors with
  | nil =>
    rw [append_nil]
    exact .refl
  | cons err reported ih =>
    rw [length_cons] at hroom
    have hreport : InfosStep
        { chs := [], phase := .waiting, errors := errors, reporting := err :: reported ++ reporting }
        { chs := [], phase := .waiting, errors := errors ++ [err], reporting := reported ++ reporting,
          finishing := 1 } :=
      @InfosStep.report _ _ [] _ _ rfl (by dsimp only; omega)
    have hdone : InfosStep
        { chs := [], phase := .waiting, errors := errors ++ [err], reporting := reported ++ reporting, finishing := 1 }
        { chs := [], phase := .waiting, errors := errors ++ [err], reporting := reported ++ reporting } :=
      .done Nat.one_pos
    have hrest := ih (errors ++ [err]) (by rw [length_append, length_singleton]; omega)
    rw [append_assoc, singleton_append] at hrest
    exact .head hreport (.head hdone hrest)

/-- The channel of the results is full, and a goroutine that `wg.Wait` waits for cannot report. -/
theorem full_stuck {errors reporting : List (Option ε)} (hfull : errors.length = maxParallelJobsCount * 2)
    (hreporting : reporting ≠ []) (s : InfosState ε) :
    ¬ InfosStep { chs := [], phase := .waiting, errors := errors, reporting := reporting } s := by
  intro h
  cases h with
  | drain hdraining _ | fail hdraining _ => rcases hdraining with h | h <;> simp at h
  | checked hphase _ _ | launch hphase _ _ | rangeDone hphase _ | finish hphase _ => cases hphase
  | waited hphase hrunning =>
    have hpos := length_pos_iff.mpr hreporting
    simp only [InfosState.running, length_nil] at hrunning
    omega
  | copied hlist | giveBack hlist _ => simp at hlist
  | report _ hroom => exact absurd hfull hroom.ne
  | done hfinishing => cases hfinishing

theorem reaches_full {jobs : List (CopyJob ε)} (hmany : maxParallelJobsCount * 2 < jobs.length) :
    ∃ errors reporting : List (Option ε), errors.length = maxParallelJobsCount * 2 ∧ reporting ≠ [] ∧
      Relation.ReflTransGen InfosStep { chs := jobs }
        { chs := [], phase := .waiting, errors := errors, reporting := reporting } := by
  have hlen : (jobs.map CopyJob.err).reverse.length = jobs.length := by rw [length_reverse, length_map]
  have htake : ((jobs.map CopyJob.err).reverse.take (maxParallelJobsCount * 2)).length = maxParallelJobsCount * 2 := by
    rw [length_take, hlen, min_eq_left hmany.le]
  refine ⟨_, (jobs.map CopyJob.err).reverse.drop (maxParallelJobsCount * 2), htake, ?_, ?_⟩
  · rw [ne_eq, drop_eq_nil_iff, hlen]
    exact not_le.mpr hmany
  · have hlaunched := reaches_launched jobs []
    have hwaiting : InfosStep { chs := [], reporting := (jobs.map CopyJob.err).reverse ++ [] }
        { chs := [], phase := .waiting, reporting := (jobs.map CopyJob.err).reverse ++ [] } := .rangeDone rfl rfl
    have hreported := reaches_reported _ ((jobs.map CopyJob.err).reverse.drop (maxParallelJobsCount * 2)) []
      (show 0 + _ ≤ _ by rw [htake, Nat.zero_add])
    rw [nil_append, take_append_drop] at hreported
    rw [append_nil] at hlaunched hwaiting
    exact (hlaunched.tail hwaiting).trans hreported

end Deadlock

section Returns

variable {ε : Type}

/-- In every interleaving the copy returns, with no error exactly if every object was copied. -/
def InfosReturns (jobs : List (CopyJob ε)) : Prop :=
  Completes InfosStep { chs := jobs } InfosState.Returned fun s =>
    s.phase = .returned none ↔ ∀ job ∈ jobs, job.err = none

/-- A copy returns in every interleaving exactly if there are at most as many objects as the channel of the results
has room for. -/
theorem infos_returns_iff (jobs : List (CopyJob ε)) : InfosReturns jobs ↔ jobs.length ≤ maxParallelJobsCount * 2 := by
  constructor
  · intro h
    by_contra hmany
    obtain ⟨errors, reporting, hfull, hne, hreach⟩ := reaches_full (not_le.mp hmany)
    exact not_completes_of_stuck hreach (InfosInv.not_returned (.inr (.inr (.inl rfl)))) (full_stuck hfull hne) h
  · intro hfew
    refine ⟨fun s hreach hreturned => (InfosInv.of_reaches hreach).exists_step hfew hreturned,
      fun run _ => exists_no_step_of_measure InfosState.steps (fun _ _ h => h.steps_lt) run,
      fun s hreach hreturned => ?_⟩
    obtain ⟨err, herr⟩ := hreturned
    rw [herr, ← (InfosInv.of_reaches hreach).returned err herr, MainPhase.returned.injEq]

/-- Seventeen objects that would all be copied. -/
theorem infos_hangs : ¬ InfosReturns (replicate 17 (⟨⟨[], [], [], []⟩, none⟩ : CopyJob Unit)) := by
  obtain ⟨errors, reporting, hfull, hne, hreach⟩ := reaches_full
    (show maxParallelJobsCount * 2 < (replicate 17 (⟨⟨[], [], [], []⟩, none⟩ : CopyJob Unit)).length by decide)
  exact not_completes_of_stuck hreach (InfosInv.not_returned (.inr (.inr (.inl rfl)))) (full_stuck hfull hne)

end Returns

end WalG.Copy
