import WalG.Extract.FileJob

/-! # One attempt at the files of a run

The collecting loop takes a token of the semaphore for each file and starts its two goroutines.
-/
namespace WalG.Extract
open List

variable {F : Type}

structure Attempt (F : Type) where
  downloadingConcurrency : ℕ
  tokens : ℕ
  pending : List (Job F)
  running : List (JobState F)
  isFailed : List F

namespace Effect

/-- The tokens given back. -/
def tokens : Effect → ℕ
  | .release => 1
  | _ => 0

/-- The failure map after the effect of a step for `file`. -/
def apply (file : F) (isFailed : List F) : Effect → List F
  | .store => file :: isFailed
  | _ => isFailed

theorem mem_apply {effect : Effect} {file f : F} {isFailed : List F} :
    f ∈ effect.apply file isFailed ↔ f ∈ isFailed ∨ effect = .store ∧ f = file := by
  cases effect <;> simp [apply, or_comm]

end Effect

def Attempt.start (downloadingConcurrency : ℕ) (jobs : List (Job F)) : Attempt F :=
  ⟨downloadingConcurrency, downloadingConcurrency, jobs, [], []⟩

inductive AttemptStep : Attempt F → Attempt F → Prop where
  | spawn {a job rest} (hpending : a.pending = job :: rest) (htokens : 0 < a.tokens) :
    AttemptStep a { a with tokens := a.tokens - 1, pending := rest, running := a.running ++ [job.start] }
  | step {a before s after effect s'} (hrunning : a.running = before ++ s :: after)
    (hstep : JobStep s effect s') :
    AttemptStep a { a with
      tokens := a.tokens + effect.tokens
      running := before ++ s' :: after
      isFailed := effect.apply s.job.file a.isFailed }

/-- The collecting loop holds all tokens again. -/
def Attempt.Collected (a : Attempt F) : Prop := a.pending = [] ∧ a.tokens = a.downloadingConcurrency

/-- The files that still hold a token. -/
def Attempt.holding (a : Attempt F) : ℕ := a.running.countP fun s => !s.reader.isReleased

/-- What holds in an attempt at the given jobs, in every interleaving. -/
structure AttemptInv (jobs : List (Job F)) (a : Attempt F) : Prop where
  split : a.running.map JobState.job ++ a.pending = jobs
  running : ∀ s ∈ a.running, JobInv s
  tokens : a.tokens + a.holding = a.downloadingConcurrency
  stored : ∀ s ∈ a.running, s.reader.hasStored = true → s.job.file ∈ a.isFailed
  files : ∀ f ∈ a.isFailed, ∃ job ∈ jobs, job.file = f

theorem attemptInv_start (downloadingConcurrency : ℕ) (jobs : List (Job F)) :
    AttemptInv jobs (Attempt.start downloadingConcurrency jobs) where
  split := rfl
  running := nofun
  tokens := rfl
  stored := nofun
  files := nofun

section JobEffects

variable {s s' : JobState F} {effect : Effect} (h : JobStep s effect s')

include h

theorem JobStep.tokens_eq :
    effect.tokens + (if s'.reader.isReleased then 0 else 1) = if s.reader.isReleased then 0 else 1 := by
  cases h with
  | transfer | writerEnd | writerBroken => exact Nat.zero_add _
  | @writerRecord failed => cases failed <;> exact Nat.zero_add _
  | readerEnd hr => simp [hr, Effect.tokens, Reader.isReleased]
  | @readerRecord failed hr =>
    cases failed <;> simp [hr, Effect.tokens, Effect.record, Reader.isReleased]
  | readerRelease hr => simp [hr, Effect.tokens, Reader.isReleased]

theorem JobStep.stored_or (hstored : s'.reader.hasStored = true) : s.reader.hasStored = true ∨ effect = .store := by
  cases h with
  | transfer | writerEnd | writerBroken | writerRecord => exact .inl hstored
  | readerEnd => cases hstored
  | readerRecord hr =>
    obtain rfl : _ = true := hstored
    exact .inr rfl
  | readerRelease hr =>
    rw [hr]
    exact .inl hstored

end JobEffects

theorem AttemptInv.step {jobs : List (Job F)} {a a' : Attempt F} (h : AttemptInv jobs a)
    (hstep : AttemptStep a a') : AttemptInv jobs a' := by
  cases hstep with
  | @spawn job rest hpending htokens =>
    have hjobs := h.split
    have hsum := h.tokens
    rw [hpending] at hjobs
    refine ⟨?_, ?_, ?_, ?_, h.files⟩
    · rw [← hjobs, map_append, append_assoc]
      rfl
    · intro s hs
      rcases mem_append.mp hs with hs | hs
      · exact h.running s hs
      · rw [mem_singleton.mp hs]
        exact jobInv_start job
    · rw [Attempt.holding] at hsum ⊢
      rw [countP_append]
      change a.tokens - 1 + (_ + 1) = a.downloadingConcurrency
      omega
    · intro s hs hstored
      rcases mem_append.mp hs with hs | hs
      · exact h.stored s hs hstored
      · rw [mem_singleton.mp hs] at hstored
        cases hstored
  | @step before s after effect s' hrunning hstep =>
    have hmem : ∀ t, t ∈ before ++ s' :: after → t ∈ a.running ∨ t = s' := by
      intro t ht
      rw [mem_append, mem_cons] at ht
      rw [hrunning, mem_append, mem_cons]
      tauto
    have hs : s ∈ a.running := by
      rw [hrunning]
      exact mem_append_right _ mem_cons_self
    have hsum := h.tokens
    have htokens := hstep.tokens_eq
    refine ⟨?_, ?_, ?_, ?_, ?_⟩
    · rw [← h.split, hrunning, map_append, map_append, map_cons, map_cons, hstep.job_eq]
    · intro t ht
      rcases hmem t ht with ht | rfl
      · exact h.running t ht
      · exact (h.running s hs).step hstep
    · rw [Attempt.holding, hrunning, countP_append, countP_cons] at hsum
      rw [Attempt.holding, countP_append, countP_cons]
      cases hrel : s.reader.isReleased <;> cases hrel' : s'.reader.isReleased <;>
        simp [hrel, hrel'] at hsum htokens ⊢ <;> omega
    · intro t ht hstored
      rw [Effect.mem_apply]
      rcases hmem t ht with ht | rfl
      · exact .inl (h.stored t ht hstored)
      · rcases hstep.stored_or hstored with hbefore | heffect
        · exact .inl (hstep.job_eq ▸ h.stored s hs hbefore)
        · exact .inr ⟨heffect, by rw [hstep.job_eq]⟩
    · intro f hf
      rcases Effect.mem_apply.mp hf with hf | ⟨-, rfl⟩
      · exact h.files f hf
      · refine ⟨s.job, ?_, rfl⟩
        rw [← h.split]
        exact mem_append_left _ (mem_map_of_mem hs)

/-- The steps of an attempt that are still to come. -/
def Attempt.remaining (a : Attempt F) : ℕ :=
  (a.pending.map fun job => job.start.remaining + 1).sum + (a.running.map JobState.remaining).sum

theorem AttemptStep.remaining_lt {a a' : Attempt F} (h : AttemptStep a a') : a'.remaining < a.remaining := by
  cases h with
  | spawn hpending _ =>
    rw [Attempt.remaining, Attempt.remaining, hpending]
    simp only [map_cons, map_append, map_nil, sum_cons, sum_append, sum_nil]
    omega
  | step hrunning hstep =>
    have hlt := hstep.remaining_lt
    rw [Attempt.remaining, Attempt.remaining, hrunning]
    simp only [map_append, map_cons, sum_append, sum_cons]
    omega

section Collecting

variable {jobs : List (Job F)} {a : Attempt F} (h : AttemptInv jobs a)

include h

theorem AttemptInv.exists_step (hpos : 0 < a.downloadingConcurrency) (hopen : ¬ a.Collected) :
    ∃ a', AttemptStep a a' := by
  by_cases hholding : a.holding = 0
  · have htokens := h.tokens
    rw [hholding, Nat.add_zero] at htokens
    cases hpending : a.pending with
    | nil => exact absurd ⟨hpending, htokens⟩ hopen
    | cons job rest => exact ⟨_, .spawn hpending (htokens ▸ hpos)⟩
  · obtain ⟨s, hs, hreader⟩ := countP_pos_iff.mp (Nat.pos_of_ne_zero hholding)
    obtain ⟨before, after, hrunning⟩ := append_of_mem hs
    obtain ⟨effect, s', hstep⟩ := (h.running s hs).exists_step (by simpa using hreader)
    exact ⟨_, .step hrunning hstep⟩

theorem AttemptInv.extracts_of_not_failed (hcollected : a.Collected) {job : Job F} (hjob : job ∈ jobs)
    (hfailed : job.file ∉ a.isFailed) : job.extracts = true := by
  have hholding : a.holding = 0 := by
    have htokens := h.tokens
    rw [hcollected.2] at htokens
    omega
  have hsplit := h.split
  rw [hcollected.1, append_nil] at hsplit
  rw [← hsplit] at hjob
  obtain ⟨s, hs, rfl⟩ := mem_map.mp hjob
  have hreleased := countP_eq_zero.mp hholding s hs
  cases hr : s.reader with
  | released failed =>
    have houtcome := (h.running s hs).reader failed (by rw [hr]; rfl)
    cases failed with
    | false => rwa [eq_comm, Bool.not_eq_false'] at houtcome
    | true => exact absurd (h.stored s hs (by rw [hr]; rfl)) hfailed
  | reading | closed | recorded =>
    rw [hr] at hreleased
    exact absurd rfl hreleased

end Collecting

end WalG.Extract
