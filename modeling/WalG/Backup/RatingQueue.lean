import WalG.Foundation.Interleaving

/-! # The workers of the rating composer

`AddFile` sends a file to a queue of as many places as there are workers.
-/
namespace WalG.Backup
open Foundation List

variable {F ε : Type}

/-- A file that is added, with the error that adding it ends with. -/
structure AddFileTask (F ε : Type) where
  info : F
  err : Option ε

namespace AddFileTask

def fails (task : AddFileTask F ε) : Bool := task.err.isSome

end AddFileTask

/-- Where the producer is: between calls of `AddFile`, or in `PackTarballs` before one of its two waits. -/
inductive ProducerPhase (ε : Type) where
  | adding
  | waitingGroup
  | waitingFiles
  | returned (err : Option ε)

/-- The workers wait for a file, add one, have left with an error or have ended; `err` is the error of the group. -/
structure RatingState (F ε : Type) where
  files : List (AddFileTask F ε)
  idle : ℕ
  phase : ProducerPhase ε := .adding
  addFileQueue : List (AddFileTask F ε) := []
  busy : List (AddFileTask F ε) := []
  left : ℕ := 0
  ended : ℕ := 0
  err : Option ε := none

namespace RatingState

def start (workers : ℕ) (files : List (AddFileTask F ε)) : RatingState F ε := { files := files, idle := workers }

def Returned (s : RatingState F ε) : Prop := ∃ err, s.phase = .returned err

/-- The workers that will go on after the file they have. -/
def alive (s : RatingState F ε) : ℕ := s.idle + s.ended + s.busy.countP fun task => !task.fails

end RatingState

inductive RatingStep (workers : ℕ) (s : RatingState F ε) : RatingState F ε → Prop where
  | addFile {task files} (hphase : s.phase = .adding) (hfiles : s.files = task :: files)
    (hroom : s.addFileQueue.length < workers) :
    RatingStep workers s { s with files := files, addFileQueue := s.addFileQueue ++ [task] }
  | closeQueue (hphase : s.phase = .adding) (hfiles : s.files = []) :
    RatingStep workers s { s with phase := .waitingGroup }
  | groupFailed {e} (hphase : s.phase = .waitingGroup) (hidle : s.idle = 0) (hbusy : s.busy = [])
    (herr : s.err = some e) : RatingStep workers s { s with phase := .returned (some e) }
  | groupEnded (hphase : s.phase = .waitingGroup) (hidle : s.idle = 0) (hbusy : s.busy = []) (herr : s.err = none) :
    RatingStep workers s { s with phase := .waitingFiles }
  | packed (hphase : s.phase = .waitingFiles) (hended : s.ended = workers) :
    RatingStep workers s { s with phase := .returned none }
  | take {task queue} (hidle : 0 < s.idle) (hqueue : s.addFileQueue = task :: queue) :
    RatingStep workers s { s with addFileQueue := queue, idle := s.idle - 1, busy := task :: s.busy }
  | endWorker (hidle : 0 < s.idle) (hqueue : s.addFileQueue = []) (hclosed : s.phase ≠ .adding) :
    RatingStep workers s { s with idle := s.idle - 1, ended := s.ended + 1 }
  | added {before task after} (hbusy : s.busy = before ++ task :: after) (herr : task.err = none) :
    RatingStep workers s { s with busy := before ++ after, idle := s.idle + 1 }
  | addFailed {before task after e} (hbusy : s.busy = before ++ task :: after) (herr : task.err = some e) :
    RatingStep workers s { s with busy := before ++ after, left := s.left + 1, err := s.err.or (some e) }

section Measure

def ProducerPhase.steps : ProducerPhase ε → ℕ
  | .adding => 3
  | .waitingGroup => 2
  | .waitingFiles => 1
  | .returned _ => 0

/-- A bound on the steps that are left. -/
def RatingState.steps (s : RatingState F ε) : ℕ :=
  s.phase.steps + 4 * s.files.length + 3 * s.addFileQueue.length + 2 * s.busy.length + s.idle

attribute [local simp] RatingState.steps ProducerPhase.steps

theorem RatingStep.steps_lt {workers : ℕ} {s s' : RatingState F ε} (h : RatingStep workers s s') :
    s'.steps < s.steps := by
  cases h with
  | addFile _ hlist _ | take _ hlist | added hlist _ =>
    simp [hlist]
    omega
  | addFailed hbusy _ => simp [hbusy]
  | closeQueue hphase _ | groupFailed hphase _ _ _ | groupEnded hphase _ _ _ | packed hphase _ => simp [hphase]
  | endWorker hidle _ _ => simpa using hidle

end Measure

/-- Once as many files have failed as there are workers alive, no more files follow than the queue has room for. -/
def Drains (capacity alive : ℕ) (files : List (AddFileTask F ε)) : Prop :=
  ∀ before after, files = before ++ after → before.countP AddFileTask.fails = alive → after.length ≤ capacity

namespace Drains

variable {capacity alive : ℕ} {files : List (AddFileTask F ε)} {task : AddFileTask F ε}

theorem of_length_le (h : files.length ≤ capacity) : Drains capacity alive files := by
  rintro before after rfl -
  rw [length_append] at h
  omega

theorem length_le (h : Drains capacity 0 files) : files.length ≤ capacity := h [] files rfl rfl

theorem cons_iff : Drains capacity (alive + 1) (task :: files) ↔
    Drains capacity (if task.fails then alive else alive + 1) files := by
  constructor
  · rintro h before after rfl hcount
    refine h (task :: before) after rfl ?_
    rw [countP_cons, hcount]
    split_ifs <;> rfl
  · rintro h before after hfiles hcount
    cases before with
    | nil => cases hcount
    | cons first before =>
      cases hfiles
      refine h before after rfl ?_
      rw [countP_cons] at hcount
      split_ifs at hcount ⊢ <;> omega

end Drains

/-- What stands for every interleaving: each worker is somewhere, the workers that are left drain the files exactly if
all of them drain all files, and no error was met exactly if none is to come. -/
structure RatingInv (workers : ℕ) (files : List (AddFileTask F ε)) (s : RatingState F ε) : Prop where
  count : s.idle + s.busy.length + s.left + s.ended = workers
  room : s.addFileQueue.length ≤ workers
  drains : Drains workers s.alive (s.addFileQueue ++ s.files) ↔ Drains workers workers files
  closed : s.phase ≠ .adding → s.files = []
  ended : 0 < s.ended → s.addFileQueue = [] ∧ s.phase ≠ .adding
  err : s.err = none ↔ s.left = 0
  noFailure : (s.left = 0 ∧ (∀ task ∈ s.files, task.err = none) ∧ (∀ task ∈ s.addFileQueue, task.err = none) ∧
    ∀ task ∈ s.busy, task.err = none) ↔ ∀ task ∈ files, task.err = none
  waited : s.phase = .waitingFiles ∨ s.Returned → s.idle = 0 ∧ s.busy = []
  waitingFiles : s.phase = .waitingFiles → s.err = none
  returned : ∀ err, s.phase = .returned err → err = s.err

namespace RatingInv

variable {workers : ℕ} {files : List (AddFileTask F ε)} {s s' : RatingState F ε}

theorem start (workers : ℕ) (files : List (AddFileTask F ε)) : RatingInv workers files (.start workers files) where
  count := rfl
  room := Nat.zero_le _
  drains := Iff.rfl
  closed h := absurd rfl h
  ended h := absurd h (lt_irrefl 0)
  err := iff_of_true rfl rfl
  noFailure := by simp [RatingState.start]
  waited h := by simp [RatingState.start, RatingState.Returned] at h
  waitingFiles := nofun
  returned := nofun

theorem exists_processed (h : s.busy ≠ []) : ∃ s', RatingStep workers s s' := by
  obtain ⟨task, rest, hbusy⟩ := exists_cons_of_ne_nil h
  cases herr : task.err with
  | none => exact ⟨_, @RatingStep.added _ _ _ _ [] _ _ hbusy herr⟩
  | some e => exact ⟨_, @RatingStep.addFailed _ _ _ _ [] _ _ _ hbusy herr⟩

variable (h : RatingInv workers files s)

include h

/-- The producer alone changes neither the workers nor the files that are to come. -/
theorem of_phase {phase : ProducerPhase ε} (hfiles : s.files = [])
    (hadding : phase ≠ .adding) (hwaited : phase = .waitingGroup ∨ s.idle = 0 ∧ s.busy = [])
    (herr : phase = .waitingFiles → s.err = none) (hreturned : ∀ err, phase = .returned err → err = s.err) :
    RatingInv workers files { s with phase := phase } := by
  refine ⟨h.count, h.room, h.drains, fun _ => hfiles, fun hended => ⟨(h.ended hended).1, hadding⟩, h.err, h.noFailure,
    fun hphase => ?_, herr, hreturned⟩
  rcases hwaited with rfl | hwaited
  · rcases hphase with hphase | ⟨err, hphase⟩
    · cases hphase
    · cases hphase
  · exact hwaited

theorem ended_eq_zero (hne : s.addFileQueue ≠ [] ∨ s.phase = .adding) : s.ended = 0 := by
  by_contra hended
  obtain ⟨hnil, hclosed⟩ := h.ended (Nat.pos_of_ne_zero hended)
  exact hne.elim (absurd hnil) hclosed

theorem take {task : AddFileTask F ε} {queue : List (AddFileTask F ε)}
    (hidle : 0 < s.idle) (hqueue : s.addFileQueue = task :: queue) :
    RatingInv workers files { s with addFileQueue := queue, idle := s.idle - 1, busy := task :: s.busy } := by
  have hcount := h.count
  have hroom := h.room
  have hended := h.ended_eq_zero (.inl (by simp [hqueue]))
  rw [hqueue, length_cons] at hroom
  refine { h with count := ?_, room := Nat.le_of_succ_le hroom, drains := ?_, ended := fun hpos => absurd hended hpos.ne'
                  noFailure := ?_, waited := fun hphase => absurd (h.waited hphase).1 hidle.ne' }
  · simp only [length_cons]
    omega
  · rw [← h.drains, hqueue, cons_append]
    obtain ⟨idle, hsucc⟩ := Nat.exists_eq_succ_of_ne_zero hidle.ne'
    simp only [RatingState.alive, hended, hsucc, Nat.succ_eq_add_one, Nat.add_sub_cancel, Nat.add_zero]
    rw [Nat.add_right_comm, Drains.cons_iff, countP_cons]
    cases task.fails <;> simp [Nat.add_assoc]
  · rw [← h.noFailure, hqueue]
    simp only [forall_mem_cons]
    tauto

theorem processed {before after : List (AddFileTask F ε)} {task : AddFileTask F ε}
    (hbusy : s.busy = before ++ task :: after) {idle left : ℕ} {err : Option ε}
    (hidle : idle = if task.fails then s.idle else s.idle + 1)
    (hleft : left = if task.fails then s.left + 1 else s.left) (herr : err = s.err.or task.err) :
    RatingInv workers files { s with busy := before ++ after, idle := idle, left := left, err := err } := by
  have hcount := h.count
  have hphase : ¬ (s.phase = .waitingFiles ∨ s.Returned) := fun hphase => by
    simpa [hbusy] using (h.waited hphase).2
  have hleft' : left = 0 ↔ s.left = 0 ∧ task.err = none := by
    rw [hleft, AddFileTask.fails]
    cases task.err <;> simp
  refine { h with count := ?_, drains := ?_, err := ?_, noFailure := ?_, waited := fun hwaited => absurd hwaited hphase
                  waitingFiles := fun hwaited => absurd (.inl hwaited) hphase
                  returned := fun err hreturned => absurd (.inr ⟨err, hreturned⟩) hphase }
  · cases hfails : task.fails <;> simp [hbusy, hfails] at hcount hidle hleft ⊢ <;> omega
  · have halive : RatingState.alive { s with busy := before ++ after, idle := idle, left := left, err := err } =
        s.alive := by
      cases hfails : task.fails <;> simp [RatingState.alive, hbusy, hfails] at hidle ⊢ <;> omega
    rw [← h.drains, halive]
  · rw [hleft', ← h.err, herr]
    cases s.err <;> simp
  · rw [hleft', ← h.noFailure, hbusy]
    simp only [forall_mem_append, forall_mem_cons]
    tauto

theorem step (hstep : RatingStep workers s s') : RatingInv workers files s' := by
  cases hstep with
  | addFile hphase hfiles hroom =>
    refine { h with room := ?_, drains := ?_, closed := fun hclosed => absurd hphase hclosed
                    ended := fun hended => absurd hphase (h.ended hended).2, noFailure := ?_ }
    · rw [length_append, length_singleton]
      exact hroom
    · rw [← h.drains, hfiles, append_assoc, singleton_append]
      exact Iff.rfl
    · rw [← h.noFailure, hfiles]
      simp only [forall_mem_append, forall_mem_cons, not_mem_nil, false_implies, implies_true, and_true]
      tauto
  | closeQueue hphase hfiles =>
    exact h.of_phase hfiles (by simp) (.inl rfl) (fun hne => by cases hne) (fun err hne => by cases hne)
  | groupFailed hphase hidle hbusy herr =>
    refine h.of_phase (h.closed (by simp [hphase])) (by simp) (.inr ⟨hidle, hbusy⟩) (fun hne => by cases hne)
      fun err hreturned => ?_
    rw [← ProducerPhase.returned.inj hreturned, herr]
  | groupEnded hphase hidle hbusy herr =>
    exact h.of_phase (h.closed (by simp [hphase])) (by simp) (.inr ⟨hidle, hbusy⟩) (fun _ => herr)
      (fun err hne => by cases hne)
  | packed hphase hended =>
    refine h.of_phase (h.closed (by simp [hphase])) (by simp) (.inr (h.waited (.inl hphase)))
      (fun hne => by cases hne) fun err hreturned => ?_
    rw [← ProducerPhase.returned.inj hreturned, h.waitingFiles hphase]
  | take hidle hqueue => exact h.take hidle hqueue
  | endWorker hidle hqueue hclosed =>
    have hcount := h.count
    have halive : ({ s with idle := s.idle - 1, ended := s.ended + 1 } : RatingState F ε).alive = s.alive := by
      simp only [RatingState.alive]
      omega
    exact { h with count := by dsimp only; omega, drains := by rw [← h.drains, halive], ended := fun _ => ⟨hqueue, hclosed⟩
                   waited := fun hphase => absurd (h.waited hphase).1 hidle.ne' }
  | added hbusy herr =>
    exact h.processed hbusy (by simp [AddFileTask.fails, herr]) (by simp [AddFileTask.fails, herr]) (by simp [herr])
  | addFailed hbusy herr =>
    exact h.processed hbusy (by simp [AddFileTask.fails, herr]) (by simp [AddFileTask.fails, herr]) (by simp [herr])

/-- The producer waits for room only while a worker is left, if the files drain. -/
theorem exists_step_adding (hdrains : Drains workers workers files)
    (hphase : s.phase = .adding) : ∃ s', RatingStep workers s s' := by
  by_cases hbusy : s.busy = []
  · cases hfiles : s.files with
    | nil => exact ⟨_, .closeQueue hphase hfiles⟩
    | cons task rest =>
      rcases Nat.lt_or_ge s.addFileQueue.length workers with hroom | hfull
      · exact ⟨_, .addFile hphase hfiles hroom⟩
      · have hcount := h.count
        have hended := h.ended_eq_zero (.inr hphase)
        rcases Nat.eq_zero_or_pos s.idle with hidle | hidle
        · have hle : (s.addFileQueue ++ s.files).length ≤ workers := by
            have hleft := h.drains.mpr hdrains
            rw [RatingState.alive, hidle, hended, hbusy] at hleft
            exact hleft.length_le
          rw [length_append, hfiles, length_cons] at hle
          omega
        · have hne : s.addFileQueue ≠ [] := ne_nil_of_length_pos (by omega)
          obtain ⟨task, queue, hqueue⟩ := exists_cons_of_ne_nil hne
          exact ⟨_, .take hidle hqueue⟩
  · exact exists_processed hbusy

theorem exists_step (hdrains : Drains workers workers files)
    (hreturned : ¬ s.Returned) : ∃ s', RatingStep workers s s' := by
  cases hphase : s.phase with
  | adding => exact h.exists_step_adding hdrains hphase
  | waitingGroup =>
    by_cases hbusy : s.busy = []
    · rcases Nat.eq_zero_or_pos s.idle with hidle | hidle
      · cases herr : s.err with
        | none => exact ⟨_, .groupEnded hphase hidle hbusy herr⟩
        | some e => exact ⟨_, .groupFailed hphase hidle hbusy herr⟩
      · cases hqueue : s.addFileQueue with
        | nil => exact ⟨_, .endWorker hidle hqueue (by simp [hphase])⟩
        | cons task queue => exact ⟨_, .take hidle hqueue⟩
    · exact exists_processed hbusy
  | waitingFiles =>
    obtain ⟨hidle, hbusy⟩ := h.waited (.inl hphase)
    have hleft := h.err.mp (h.waitingFiles hphase)
    have hcount := h.count
    rw [hidle, hbusy, hleft] at hcount
    exact ⟨_, .packed hphase (by simpa using hcount)⟩
  | returned err => exact absurd ⟨err, hphase⟩ hreturned

theorem drains_of_closed (hclosed : s.phase ≠ .adding) : Drains workers workers files := by
  rw [← h.drains, h.closed hclosed, append_nil]
  exact .of_length_le h.room

theorem returned_none_iff (hreturned : s.Returned) : s.phase = .returned none ↔ ∀ task ∈ files, task.err = none := by
  obtain ⟨err, hphase⟩ := hreturned
  have hclosed : s.phase ≠ .adding := by
    rw [hphase]
    simp
  obtain ⟨hidle, hbusy⟩ := h.waited (.inr ⟨err, hphase⟩)
  rw [hphase, ProducerPhase.returned.injEq, h.returned err hphase, h.err, ← h.noFailure, h.closed hclosed, hbusy]
  constructor
  · intro hleft
    have hqueue : s.addFileQueue = [] := by
      have hcount := h.count
      rw [hidle, hbusy, hleft, length_nil, Nat.add_zero, Nat.zero_add] at hcount
      rcases Nat.eq_zero_or_pos s.ended with hzero | hpos
      · have hroom := h.room
        rw [← hcount, hzero, Nat.le_zero] at hroom
        exact length_eq_zero_iff.mp hroom
      · exact (h.ended hpos).1
    rw [hqueue]
    simpa using hleft
  · exact fun hnone => hnone.1

omit h in
theorem of_reaches (hreach : Relation.ReflTransGen (RatingStep workers) (.start workers files) s) :
    RatingInv workers files s :=
  invariant_of_steps (fun _ _ h hstep => h.step hstep) (start workers files) hreach

end RatingInv

section Returns

/-- In every interleaving all calls of `AddFile` return, and `PackTarballs` returns up to the point of packing, with
an error exactly if adding some file failed. -/
def RatingReturns (workers : ℕ) (files : List (AddFileTask F ε)) : Prop :=
  Completes (RatingStep workers) (.start workers files) RatingState.Returned fun s =>
    s.phase = .returned none ↔ ∀ task ∈ files, task.err = none

theorem not_ratingReturns {workers : ℕ} {files : List (AddFileTask F ε)} (h : ¬ Drains workers workers files) :
    ¬ RatingReturns workers files := by
  obtain ⟨last, hreach, hstuck⟩ := exists_stuck_of_measure RatingState.steps
    (fun _ _ hstep => RatingStep.steps_lt hstep) (RatingState.start workers files)
  have hinv := RatingInv.of_reaches hreach
  refine not_completes_of_stuck hreach (fun hreturned => h (hinv.drains_of_closed ?_)) hstuck
  obtain ⟨err, hphase⟩ := hreturned
  rw [hphase]
  simp

/-- The composer never hangs exactly if no more files than the queue has room for follow the failure that takes away
the last worker. -/
theorem rating_returns_iff (workers : ℕ) (files : List (AddFileTask F ε)) :
    RatingReturns workers files ↔ Drains workers workers files := by
  constructor
  · exact fun h => by_contra fun hdrains => not_ratingReturns hdrains h
  · intro hdrains
    exact ⟨fun s hreach hreturned => (RatingInv.of_reaches hreach).exists_step hdrains hreturned,
      fun run _ => exists_no_step_of_measure RatingState.steps (fun _ _ hstep => hstep.steps_lt) run,
      fun s hreach hreturned => (RatingInv.of_reaches hreach).returned_none_iff hreturned⟩

/-- One worker, whose first file fails and two files follow. -/
theorem rating_hangs : ¬ RatingReturns 1 [(⟨(), some ()⟩ : AddFileTask Unit Unit), ⟨(), none⟩, ⟨(), none⟩] := by
  refine not_ratingReturns fun h => ?_
  have hle := h [⟨(), some ()⟩] [⟨(), none⟩, ⟨(), none⟩] rfl rfl
  exact absurd hle (by decide)

end Returns

end WalG.Backup
