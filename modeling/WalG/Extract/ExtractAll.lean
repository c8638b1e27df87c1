import WalG.Extract.Attempt
import Mathlib.Data.Nat.Log
import Mathlib.Logic.Relation
import Mathlib.Order.WellFounded

/-! # Extracting all files with retries

The loop repeats the attempt with the files that failed, at half the concurrency until it is one,
and then as long as some file gets through.
-/
namespace WalG.Extract
open List

variable {F : Type}

inductive ExtractError (F : Type) where
  | noFilesToExtract
  | failedToExtract (files : List F)

/-- The loop during an attempt; `attempts` has the jobs of all attempts, the newest first. -/
structure Loop (F : Type) where
  downloadingConcurrency : ℕ
  currentRun : List F
  attempt : Attempt F
  attempts : List (List (Job F))

inductive Config (F : Type) where
  | running (loop : Loop F)
  | returned (err : Option (ExtractError F)) (attempts : List (List (Job F)))

def Config.attempts : Config F → List (List (Job F))
  | .running loop => loop.attempts
  | .returned _ attempts => attempts

/-- The next attempt, with what the environment makes of its files. -/
def Loop.enter (downloadingConcurrency : ℕ) (jobs : List (Job F)) (attempts : List (List (Job F))) : Loop F :=
  ⟨downloadingConcurrency, jobs.map Job.file, .start downloadingConcurrency jobs, jobs :: attempts⟩

inductive Start (files : List F) (downloadingConcurrency : ℕ) : Config F → Prop where
  | noFiles (h : files = []) : Start files downloadingConcurrency (.returned (some .noFilesToExtract) [])
  | enter (hne : files ≠ []) (jobs) (hjobs : jobs.map Job.file = files) :
    Start files downloadingConcurrency (.running (.enter downloadingConcurrency jobs []))

/-- The recorded failures, in any order. -/
def Attempt.Failures (a : Attempt F) (failed : List F) : Prop :=
  failed.Nodup ∧ ∀ f, f ∈ failed ↔ f ∈ a.isFailed

def nextConcurrency (downloadingConcurrency : ℕ) : ℕ :=
  if 1 < downloadingConcurrency then downloadingConcurrency / 2 else downloadingConcurrency

inductive Step : Config F → Config F → Prop where
  | attempt {loop a'} (h : AttemptStep loop.attempt a') :
    Step (.running loop) (.running { loop with attempt := a' })
  | giveUp {loop failed} (hcollected : loop.attempt.Collected) (hfailed : loop.attempt.Failures failed)
    (hone : ¬ 1 < loop.downloadingConcurrency) (hall : failed.length = loop.currentRun.length) :
    Step (.running loop) (.returned (some (.failedToExtract failed)) loop.attempts)
  | done {loop} (hcollected : loop.attempt.Collected) (hfailed : loop.attempt.Failures [])
    (hgo : 1 < loop.downloadingConcurrency ∨ loop.currentRun.length ≠ 0) :
    Step (.running loop) (.returned none loop.attempts)
  | again {loop failed} (hcollected : loop.attempt.Collected) (hfailed : loop.attempt.Failures failed)
    (hgo : 1 < loop.downloadingConcurrency ∨ failed.length ≠ loop.currentRun.length) (hne : failed ≠ []) (jobs)
    (hjobs : jobs.map Job.file = failed) :
    Step (.running loop) (.running (.enter (nextConcurrency loop.downloadingConcurrency) jobs loop.attempts))

/-- What an extraction of the files can come to, in some interleaving. -/
def Reachable (files : List F) (downloadingConcurrency : ℕ) (config : Config F) : Prop :=
  ∃ start, Start files downloadingConcurrency start ∧ Relation.ReflTransGen Step start config

/-- The attempts that the loop may still need, with the current one. -/
def Loop.budget (loop : Loop F) : ℕ := Nat.log 2 loop.downloadingConcurrency + loop.currentRun.length

theorem Loop.budget_enter (downloadingConcurrency : ℕ) {jobs : List (Job F)} {run : List F}
    (hjobs : jobs.map Job.file = run) (attempts : List (List (Job F))) :
    (Loop.enter downloadingConcurrency jobs attempts).budget =
      Nat.log 2 downloadingConcurrency + run.length := by
  rw [← hjobs]
  rfl

/-- Every file is in the current run, or an earlier attempt extracted it. -/
structure LoopInv (files : List F) (downloadingConcurrency : ℕ) (jobs : List (Job F))
    (earlier : List (List (Job F))) (loop : Loop F) : Prop where
  attempts : loop.attempts = jobs :: earlier
  attempt : AttemptInv jobs loop.attempt
  currentRun : jobs.map Job.file = loop.currentRun
  concurrency : loop.attempt.downloadingConcurrency = loop.downloadingConcurrency
  pos : 0 < loop.downloadingConcurrency
  nonempty : loop.currentRun ≠ []
  bound : earlier.length + loop.budget ≤ Nat.log 2 downloadingConcurrency + files.length
  extracted : ∀ f ∈ files, f ∈ loop.currentRun ∨ ∃ job ∈ earlier.flatten, job.file = f ∧ job.extracts = true

/-- The invariant of the loop, and what it leaves to a result. -/
inductive ConfigInv (files : List F) (downloadingConcurrency : ℕ) : Config F → Prop where
  | running {loop} (jobs earlier) (h : LoopInv files downloadingConcurrency jobs earlier loop) :
    ConfigInv files downloadingConcurrency (.running loop)
  | returned {err attempts} (hbound : attempts.length ≤ Nat.log 2 downloadingConcurrency + files.length)
    (hextracted : err = none → ∀ f ∈ files, ∃ job ∈ attempts.flatten, job.file = f ∧ job.extracts = true) :
    ConfigInv files downloadingConcurrency (.returned err attempts)

variable {files : List F} {downloadingConcurrency : ℕ}

theorem configInv_start (hpos : 0 < downloadingConcurrency) {config : Config F}
    (h : Start files downloadingConcurrency config) : ConfigInv files downloadingConcurrency config := by
  cases h with
  | noFiles h => exact .returned (Nat.zero_le _) nofun
  | enter hne jobs hjobs =>
    refine .running jobs [] ⟨rfl, attemptInv_start _ _, rfl, rfl, hpos, ?_, ?_, ?_⟩
    · rw [Loop.enter, hjobs]
      exact hne
    · rw [Loop.budget_enter _ hjobs, length_nil, Nat.zero_add]
    · intro f hf
      left
      rw [Loop.enter, hjobs]
      exact hf

section Collect

variable {jobs : List (Job F)} {earlier : List (List (Job F))} {loop : Loop F}
  (h : LoopInv files downloadingConcurrency jobs earlier loop)

include h

theorem LoopInv.length_attempts_le : loop.attempts.length ≤ Nat.log 2 downloadingConcurrency + files.length := by
  have hbound := h.bound
  have hrun := length_pos_iff.mpr h.nonempty
  rw [Loop.budget] at hbound
  rw [h.attempts, length_cons]
  omega

theorem LoopInv.length_failures_le {failed : List F} (hfailed : loop.attempt.Failures failed) :
    failed.length ≤ loop.currentRun.length := by
  refine (hfailed.1.subperm fun f hf => ?_).length_le
  obtain ⟨job, hjob, rfl⟩ := h.attempt.files f ((hfailed.2 f).mp hf)
  rw [← h.currentRun]
  exact mem_map_of_mem hjob

theorem LoopInv.extracted_of_failures {failed : List F} (hcollected : loop.attempt.Collected)
    (hfailed : loop.attempt.Failures failed) {f : F} (hf : f ∈ files) :
    f ∈ failed ∨ ∃ job ∈ loop.attempts.flatten, job.file = f ∧ job.extracts = true := by
  rw [h.attempts, flatten_cons]
  rcases h.extracted f hf with hrun | ⟨job, hjob, hgood⟩
  · rw [← h.currentRun, mem_map] at hrun
    obtain ⟨job, hjob, rfl⟩ := hrun
    by_cases hin : job.file ∈ failed
    · exact .inl hin
    · have hextracts := h.attempt.extracts_of_not_failed hcollected hjob fun hmem =>
        hin ((hfailed.2 _).mpr hmem)
      exact .inr ⟨job, mem_append_left _ hjob, rfl, hextracts⟩
  · exact .inr ⟨job, mem_append_right _ hjob, hgood⟩

theorem LoopInv.budget_again {failed : List F} (hfailed : loop.attempt.Failures failed)
    (hgo : 1 < loop.downloadingConcurrency ∨ failed.length ≠ loop.currentRun.length) :
    Nat.log 2 (nextConcurrency loop.downloadingConcurrency) + failed.length + 1 ≤ loop.budget := by
  have hle := h.length_failures_le hfailed
  rw [nextConcurrency, Loop.budget]
  split_ifs with hmany
  · have hlog := Nat.log_pos (b := 2) (by decide) hmany
    rw [Nat.log_div_base]
    omega
  · have hne := hgo.resolve_left hmany
    omega

end Collect

theorem ConfigInv.step {config config' : Config F} (h : ConfigInv files downloadingConcurrency config)
    (hstep : Step config config') : ConfigInv files downloadingConcurrency config' := by
  cases hstep with
  | attempt hattempt =>
    cases h with
    | running jobs earlier h =>
      refine .running jobs earlier ⟨h.attempts, h.attempt.step hattempt, h.currentRun, ?_, h.pos, h.nonempty,
        h.bound, h.extracted⟩
      rw [← h.concurrency]
      cases hattempt <;> rfl
  | giveUp hcollected hfailed hone hall =>
    cases h with
    | running jobs earlier h => exact .returned h.length_attempts_le nofun
  | done hcollected hfailed hgo =>
    cases h with
    | running jobs earlier h =>
      refine .returned h.length_attempts_le fun _ f hf => ?_
      exact (h.extracted_of_failures hcollected hfailed hf).resolve_left (not_mem_nil)
  | @again loop failed hcollected hfailed hgo hne jobs' hjobs =>
    cases h with
    | running jobs earlier h =>
      have hbudget := h.budget_again hfailed hgo
      have hbound := h.bound
      refine .running jobs' (jobs :: earlier) ⟨?_, attemptInv_start _ _, rfl, rfl, ?_, ?_, ?_, ?_⟩
      · rw [Loop.enter, h.attempts]
      · change 0 < nextConcurrency loop.downloadingConcurrency
        rw [nextConcurrency]
        have hpos := h.pos
        split_ifs
        · omega
        · exact hpos
      · rw [Loop.enter, hjobs]
        exact hne
      · rw [Loop.budget_enter _ hjobs, length_cons]
        omega
      · intro f hf
        rw [Loop.enter, hjobs, ← h.attempts]
        exact h.extracted_of_failures hcollected hfailed hf

theorem configInv_reachable (hpos : 0 < downloadingConcurrency) {config : Config F}
    (h : Reachable files downloadingConcurrency config) : ConfigInv files downloadingConcurrency config := by
  obtain ⟨start, hstart, hsteps⟩ := h
  induction hsteps with
  | refl => exact configInv_start hpos hstart
  | tail _ hstep ih => exact ih.step hstep

section Ending

/-- The budget of attempts, and the steps left in the current one. -/
def Config.rank : Config F → ℕ × ℕ
  | .running loop => (loop.budget, loop.attempt.remaining + 1)
  | .returned _ _ => (0, 0)

theorem LoopInv.budget_pos {jobs : List (Job F)} {earlier : List (List (Job F))} {loop : Loop F}
    (h : LoopInv files downloadingConcurrency jobs earlier loop) : 0 < loop.budget :=
  Nat.add_pos_right _ (length_pos_iff.mpr h.nonempty)

theorem Step.rank_lt {config config' : Config F} (h : ConfigInv files downloadingConcurrency config)
    (hstep : Step config config') : Prod.Lex (· < ·) (· < ·) config'.rank config.rank := by
  cases hstep with
  | attempt hattempt => exact .right _ (Nat.succ_lt_succ hattempt.remaining_lt)
  | giveUp =>
    cases h with
    | running jobs earlier h => exact .left _ _ h.budget_pos
  | done =>
    cases h with
    | running jobs earlier h => exact .left _ _ h.budget_pos
  | again hcollected hfailed hgo hne jobs' hjobs =>
    cases h with
    | running jobs earlier h =>
      apply Prod.Lex.left
      rw [Loop.budget_enter _ hjobs]
      exact h.budget_again hfailed hgo

/-- No interleaving goes on forever. -/
theorem exists_not_step (hpos : 0 < downloadingConcurrency) (run : ℕ → Config F)
    (hstart : Start files downloadingConcurrency (run 0)) : ∃ n, ¬ Step (run n) (run (n + 1)) := by
  by_contra hall
  push Not at hall
  have hinv : ∀ n, ConfigInv files downloadingConcurrency (run n) := by
    intro n
    induction n with
    | zero => exact configInv_start hpos hstart
    | succ n ih => exact ih.step (hall n)
  have hwf : IsWellFounded (ℕ × ℕ) (Prod.Lex (· < ·) (· < ·)) :=
    ⟨WellFounded.prod_lex wellFounded_lt wellFounded_lt⟩
  obtain ⟨n, hn⟩ := WellFounded.not_rel_apply_succ (r := Prod.Lex (· < ·) (· < ·)) fun n => (run n).rank
  exact hn ((hall n).rank_lt (hinv n))

/-- A job that the environment can always choose. -/
def plainJob (file : F) : Job F := ⟨file, [], true, fun _ => none, fun _ => true⟩

theorem LoopInv.exists_step {jobs : List (Job F)} {earlier : List (List (Job F))} {loop : Loop F}
    (h : LoopInv files downloadingConcurrency jobs earlier loop) : ∃ config, Step (.running loop) config := by
  classical
  by_cases hcollected : loop.attempt.Collected
  · have hfailed : loop.attempt.Failures loop.attempt.isFailed.dedup :=
      ⟨nodup_dedup _, fun f => mem_dedup⟩
    by_cases hgo : 1 < loop.downloadingConcurrency ∨ loop.attempt.isFailed.dedup.length ≠ loop.currentRun.length
    · by_cases hnil : loop.attempt.isFailed.dedup = []
      · rw [hnil] at hfailed
        exact ⟨_, .done hcollected hfailed (.inr (length_pos_iff.mpr h.nonempty).ne')⟩
      · refine ⟨_, .again hcollected hfailed hgo hnil (loop.attempt.isFailed.dedup.map plainJob) ?_⟩
        rw [map_map]
        exact map_id _
    · rw [not_or, not_not] at hgo
      exact ⟨_, .giveUp hcollected hfailed hgo.1 hgo.2⟩
  · have hpos := h.pos
    rw [← h.concurrency] at hpos
    obtain ⟨a', hstep⟩ := h.attempt.exists_step hpos hcollected
    exact ⟨_, .attempt hstep⟩

end Ending

section LostFile

/-- While the extraction of a file succeeds it can go on without a failure recorded. -/
theorem JobInv.exists_quiet_step {s : JobState F} (h : JobInv s) (hextracts : s.job.extracts = true)
    (hreader : s.reader.isReleased = false) : ∃ effect s', JobStep s effect s' ∧ effect ≠ .store := by
  cases hr : s.reader with
  | reading =>
    cases hv : s.verdict with
    | some ok => exact ⟨_, _, .readerEnd hr hv, nofun⟩
    | none =>
      have hw := (JobState.verdict_none hv).1
      rcases Nat.lt_or_eq_of_le h.read_le with hlt | hend
      · exact ⟨_, _, .transfer hw hr hv hlt, nofun⟩
      · exact ⟨_, _, .writerEnd hw hend, nofun⟩
  | closed failed =>
    have hfailed := h.reader failed (by rw [hr]; rfl)
    rw [hextracts] at hfailed
    obtain rfl := hfailed
    exact ⟨_, _, .readerRecord hr, nofun⟩
  | recorded failed => exact ⟨_, _, .readerRelease hr, nofun⟩
  | released failed =>
    rw [hr] at hreader
    cases hreader

/-- Nothing is recorded in an attempt at one file, which is started. -/
structure Quiet (job : Job F) (a : Attempt F) : Prop where
  inv : AttemptInv [job] a
  pending : a.pending = []
  isFailed : a.isFailed = []

theorem Quiet.exists_collected {job : Job F} (hextracts : job.extracts = true) {a : Attempt F}
    (h : Quiet job a) : ∃ a', Relation.ReflTransGen AttemptStep a a' ∧ a'.Collected ∧ a'.isFailed = [] := by
  induction hn : a.remaining using Nat.strong_induction_on generalizing a with
  | _ n ih =>
    by_cases hholding : a.holding = 0
    · have htokens := h.inv.tokens
      rw [hholding, Nat.add_zero] at htokens
      exact ⟨a, .refl, ⟨h.pending, htokens⟩, h.isFailed⟩
    · obtain ⟨s, hs, hreader⟩ := countP_pos_iff.mp (Nat.pos_of_ne_zero hholding)
      obtain ⟨before, after, hrunning⟩ := append_of_mem hs
      have hjob : s.job = job := by
        have hmem : s.job ∈ [job] := h.inv.split ▸ mem_append_left _ (mem_map_of_mem hs)
        exact mem_singleton.mp hmem
      obtain ⟨effect, s', hstep, heffect⟩ :=
        (h.inv.running s hs).exists_quiet_step (hjob ▸ hextracts) (by simpa using hreader)
      have hattempt := AttemptStep.step hrunning hstep
      have hquiet : effect.apply s.job.file a.isFailed = [] := by
        rw [h.isFailed]
        cases effect with
        | store => exact absurd rfl heffect
        | silent | release => rfl
      obtain ⟨a', hsteps, hcollected, hnil⟩ := ih _ (hn ▸ hattempt.remaining_lt)
        ⟨h.inv.step hattempt, h.pending, hquiet⟩ rfl
      exact ⟨a', hsteps.head hattempt, hcollected, hnil⟩

theorem lift_attempt {loop : Loop F} {a' : Attempt F} (h : Relation.ReflTransGen AttemptStep loop.attempt a') :
    Relation.ReflTransGen Step (.running loop) (.running { loop with attempt := a' }) := by
  induction h with
  | refl => exact .refl
  | tail _ hstep ih => exact ih.tail (.attempt hstep)

/-- An extraction that succeeds lets the loop return without an error after one attempt,
whatever the decompression reports afterwards. -/
theorem reachable_of_extracts {job : Job F} (hextracts : job.extracts = true) :
    Reachable [job.file] 1 (.returned none [[job]]) := by
  have hspawn : AttemptStep (Attempt.start 1 [job]) ⟨1, 0, [], [job.start], []⟩ :=
    .spawn rfl Nat.one_pos
  have hquiet : Quiet job ⟨1, 0, [], [job.start], []⟩ := ⟨(attemptInv_start 1 [job]).step hspawn, rfl, rfl⟩
  obtain ⟨a', hsteps, hcollected, hnil⟩ := hquiet.exists_collected hextracts
  refine ⟨.running (.enter 1 [job] []), .enter (cons_ne_nil _ _) [job] rfl, ?_⟩
  refine (lift_attempt (hsteps.head hspawn)).tail (.done hcollected ?_ (.inr Nat.one_ne_zero))
  exact ⟨nodup_nil, fun f => by rw [hnil]⟩

end LostFile

/-- A result without an error means that every file had an attempt in which it was
decompressed and extracted. -/
def Complete (files : List F) (attempts : List (List (Job F))) : Prop :=
  ∀ f ∈ files, ∃ job ∈ attempts.flatten, job.file = f ∧ job.decompresses = true ∧ job.extracts = true

/-- Every extraction of files ends within its budget of attempts. It returns without an
error only for complete extractions exactly if no failed decompression among those that can
happen leaves a stream that is extracted all the same. -/
theorem extractAll_complete_iff (possible : Job F → Prop) :
    (∀ (files : List F) (downloadingConcurrency : ℕ), 0 < downloadingConcurrency →
      (∀ run : ℕ → Config F, Start files downloadingConcurrency (run 0) → ∃ n, ¬ Step (run n) (run (n + 1))) ∧
      ∀ config, Reachable files downloadingConcurrency config →
        config.attempts.length ≤ Nat.log 2 downloadingConcurrency + files.length ∧
        ((∃ config', Step config config') ∨ ∃ err attempts, config = .returned err attempts)) ∧
    ((∀ (files : List F) (downloadingConcurrency : ℕ) (attempts : List (List (Job F))),
      0 < downloadingConcurrency → Reachable files downloadingConcurrency (.returned none attempts) →
        (∀ job ∈ attempts.flatten, possible job) → Complete files attempts) ↔
      ∀ job, possible job → job.extracts = true → job.decompresses = true) := by
  refine ⟨fun files downloadingConcurrency hpos => ⟨exists_not_step hpos, ?_⟩, ?_, ?_⟩
  · intro config hreachable
    cases configInv_reachable hpos hreachable with
    | running jobs earlier h => exact ⟨h.length_attempts_le, .inl h.exists_step⟩
    | returned hbound _ => exact ⟨hbound, .inr ⟨_, _, rfl⟩⟩
  · intro hsafe job hjob hextracts
    have hpossible : ∀ job' ∈ ([[job]] : List (List (Job F))).flatten, possible job' := by
      intro job' hjob'
      rw [flatten_singleton, mem_singleton] at hjob'
      rwa [hjob']
    obtain ⟨job', hjob', -, hdecompresses, -⟩ := hsafe [job.file] 1 [[job]] Nat.one_pos
      (reachable_of_extracts hextracts) hpossible job.file mem_cons_self
    rw [flatten_singleton, mem_singleton] at hjob'
    rwa [← hjob']
  · intro hjobs files downloadingConcurrency attempts hpos hreachable hpossible f hf
    cases configInv_reachable hpos hreachable with
    | returned _ hextracted =>
      obtain ⟨job, hjob, hfile, hextracts⟩ := hextracted rfl f hf
      exact ⟨job, hjob, hfile, hjobs job (hpossible job hjob) hextracts, hextracts⟩

/-- A download that fails before its first byte: the extraction finds an empty stream. -/
def failedDownload : Job String := ⟨"part_001.tar.lz4", [], false, fun _ => none, fun _ => true⟩

theorem extractAll_loses_failedDownload :
    Reachable [failedDownload.file] 1 (.returned none [[failedDownload]]) ∧
      failedDownload.decompresses = false :=
  ⟨reachable_of_extracts rfl, rfl⟩

end WalG.Extract
