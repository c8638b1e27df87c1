import WalG.Foundation.Interleaving

/-! # The queue of tarballs

There are as many tarballs to fill as the queue is wide, each in the queue, with a worker or with
the goroutine that finishes one and puts a new one in its place.
-/
namespace WalG.Backup
open Foundation List

/-- A tarball is set up when it has a tar writer; `awaited` says that its uploads were awaited after it was closed. -/
structure TarBall where
  partNumber : ℕ
  size : ℕ := 0
  isSetUp : Bool := false
  closings : ℕ := 0
  awaited : Bool := false
  deriving DecidableEq, Repr

inductive GiveBack where
  | enqueueBack
  | checkSizeAndEnqueueBack
  | finishTarBall
  deriving DecidableEq, Repr

/-- What a worker does with the tarball it takes. -/
structure FillTask where
  setUp : Bool
  written : ℕ
  giveBack : GiveBack
  deriving DecidableEq, Repr

namespace TarBall

def fill (tarBall : TarBall) (task : FillTask) : TarBall :=
  { tarBall with isSetUp := tarBall.isSetUp || task.setUp, size := tarBall.size + task.written }

def closeTar (tarBall : TarBall) : TarBall := { tarBall with closings := tarBall.closings + 1 }

/-- The upload of a tarball that is set up ends after its writer is closed. -/
def Uploaded (tarBall : TarBall) : Prop := tarBall.isSetUp → 0 < tarBall.closings

def awaitUploads (tarBall : TarBall) : TarBall := { tarBall with awaited := decide (0 < tarBall.closings) }

end TarBall

/-- Where the goroutine is that has the mutex in `FinishTarBall`; without a tar writer it crashes. -/
inductive FinishStage where
  | closing (tarBall : TarBall)
  | uploading (tarBall : TarBall)
  | draining
  | awaiting (tarBall : TarBall)
  | renewing
  | unlocking
  | crashed (tarBall : TarBall)

/-- Where `FinishQueue` is, with the number of tarballs it still has to take. -/
inductive QueuePhase where
  | working
  | dequeing (left : ℕ)
  | closing (tarBall : TarBall) (left : ℕ)
  | awaiting (tarBall : TarBall) (left : ℕ)
  | draining
  | awaitingUpload (tarBall : TarBall)
  | returned

/-- `gone` has the tarballs that nobody holds any more. -/
structure QueueState where
  pending : List FillTask
  tarsToFillQueue : List TarBall
  made : ℕ
  uploadQueue : List TarBall := []
  filling : List (FillTask × TarBall) := []
  giving : List (GiveBack × TarBall) := []
  mutex : Option FinishStage := none
  phase : QueuePhase := .working
  allTarballsSize : ℕ := 0
  gone : List TarBall := []

namespace QueueState

def Crashed (s : QueueState) : Prop := ∃ tarBall, s.mutex = some (.crashed tarBall)

def Ended (s : QueueState) : Prop := s.phase = .returned ∨ s.Crashed

end QueueState

/-- The sizes of the queues, and the size over which a tarball is finished. -/
structure QueueLimits where
  parallelTarballs : ℕ
  maxUploadQueue : ℕ
  tarSizeThreshold : ℕ

namespace QueueLimits

variable (limits : QueueLimits)

def startQueue (tasks : List FillTask) : QueueState where
  pending := tasks
  tarsToFillQueue := (range limits.parallelTarballs).map fun i => { partNumber := i + 1 }
  made := limits.parallelTarballs

/-- The ways of giving a tarball back that put it into the queue. -/
def Enqueues (how : GiveBack) (tarBall : TarBall) : Prop :=
  how = .enqueueBack ∨ how = .checkSizeAndEnqueueBack ∧ ¬ limits.tarSizeThreshold < tarBall.size

end QueueLimits

inductive QueueStep (limits : QueueLimits) (s : QueueState) : QueueState → Prop where
  | deque {before task after tarBall queue} (hphase : s.phase = .working)
    (hpending : s.pending = before ++ task :: after) (hqueue : s.tarsToFillQueue = tarBall :: queue) :
    QueueStep limits s { s with
      pending := before ++ after, tarsToFillQueue := queue, filling := (task, tarBall) :: s.filling }
  | fill {before task tarBall after} (hfilling : s.filling = before ++ (task, tarBall) :: after) :
    QueueStep limits s { s with
      filling := before ++ after, giving := (task.giveBack, tarBall.fill task) :: s.giving }
  | enqueueBack {before how tarBall after} (hgiving : s.giving = before ++ (how, tarBall) :: after)
    (hhow : limits.Enqueues how tarBall) (hroom : s.tarsToFillQueue.length < limits.parallelTarballs) :
    QueueStep limits s { s with giving := before ++ after, tarsToFillQueue := s.tarsToFillQueue ++ [tarBall] }
  | lock {before how tarBall after} (hgiving : s.giving = before ++ (how, tarBall) :: after)
    (hhow : ¬ limits.Enqueues how tarBall) (hmutex : s.mutex = none) :
    QueueStep limits s { s with giving := before ++ after, mutex := some (.closing tarBall) }
  | closeTarball {tarBall} (hmutex : s.mutex = some (.closing tarBall)) (hsetUp : tarBall.isSetUp) :
    QueueStep limits s { s with
      mutex := some (.uploading tarBall.closeTar), allTarballsSize := s.allTarballsSize + tarBall.size }
  | crash {tarBall} (hmutex : s.mutex = some (.closing tarBall)) (hsetUp : ¬ tarBall.isSetUp) :
    QueueStep limits s { s with mutex := some (.crashed tarBall) }
  | upload {tarBall} (hmutex : s.mutex = some (.uploading tarBall))
    (hroom : s.uploadQueue.length < limits.parallelTarballs + limits.maxUploadQueue) :
    QueueStep limits s { s with uploadQueue := s.uploadQueue ++ [tarBall], mutex := some .draining }
  | drain {tarBall queue} (hmutex : s.mutex = some .draining) (hlong : limits.maxUploadQueue < s.uploadQueue.length)
    (hqueue : s.uploadQueue = tarBall :: queue) :
    QueueStep limits s { s with uploadQueue := queue, mutex := some (.awaiting tarBall) }
  | await {tarBall} (hmutex : s.mutex = some (.awaiting tarBall)) (huploaded : tarBall.Uploaded) :
    QueueStep limits s { s with mutex := some .draining, gone := tarBall.awaitUploads :: s.gone }
  | drained (hmutex : s.mutex = some .draining) (hshort : ¬ limits.maxUploadQueue < s.uploadQueue.length) :
    QueueStep limits s { s with mutex := some .renewing }
  | renew (hmutex : s.mutex = some .renewing) (hroom : s.tarsToFillQueue.length < limits.parallelTarballs) :
    QueueStep limits s { s with
      tarsToFillQueue := s.tarsToFillQueue ++ [{ partNumber := s.made + 1 }], made := s.made + 1
      mutex := some .unlocking }
  | unlock (hmutex : s.mutex = some .unlocking) : QueueStep limits s { s with mutex := none }
  | finishQueue (hphase : s.phase = .working) (hpending : s.pending = []) :
    QueueStep limits s { s with phase := .dequeing limits.parallelTarballs }
  | finishDeque {left tarBall queue} (hphase : s.phase = .dequeing (left + 1))
    (hqueue : s.tarsToFillQueue = tarBall :: queue) (hsetUp : tarBall.isSetUp) :
    QueueStep limits s { s with tarsToFillQueue := queue, phase := .closing tarBall left }
  | finishSkip {left tarBall queue} (hphase : s.phase = .dequeing (left + 1))
    (hqueue : s.tarsToFillQueue = tarBall :: queue) (hsetUp : ¬ tarBall.isSetUp) :
    QueueStep limits s { s with tarsToFillQueue := queue, phase := .dequeing left, gone := tarBall :: s.gone }
  | finishClose {tarBall left} (hphase : s.phase = .closing tarBall left) :
    QueueStep limits s { s with
      phase := .awaiting tarBall.closeTar left, allTarballsSize := s.allTarballsSize + tarBall.size }
  | finishAwait {tarBall left} (hphase : s.phase = .awaiting tarBall left) (huploaded : tarBall.Uploaded) :
    QueueStep limits s { s with phase := .dequeing left, gone := tarBall.awaitUploads :: s.gone }
  | finishDequed (hphase : s.phase = .dequeing 0) : QueueStep limits s { s with phase := .draining }
  | finishDrain {tarBall queue} (hphase : s.phase = .draining) (hqueue : s.uploadQueue = tarBall :: queue) :
    QueueStep limits s { s with uploadQueue := queue, phase := .awaitingUpload tarBall }
  | finishUpload {tarBall} (hphase : s.phase = .awaitingUpload tarBall) (huploaded : tarBall.Uploaded) :
    QueueStep limits s { s with phase := .draining, gone := tarBall.awaitUploads :: s.gone }
  | finished (hphase : s.phase = .draining) (hqueue : s.uploadQueue = []) :
    QueueStep limits s { s with phase := .returned }

section Measure

def FinishStage.steps : FinishStage → ℕ
  | .closing _ => 12
  | .uploading _ => 11
  | .draining => 5
  | .awaiting _ => 7
  | .renewing => 3
  | .unlocking => 1
  | .crashed _ => 0

def stageSteps (mutex : Option FinishStage) : ℕ := (mutex.map FinishStage.steps).getD 0

def QueuePhase.steps (parallelTarballs : ℕ) : QueuePhase → ℕ
  | .working => 4 * parallelTarballs + 6
  | .dequeing left => 4 * left + 5
  | .closing _ left => 4 * left + 7
  | .awaiting _ left => 4 * left + 6
  | .draining => 2
  | .awaitingUpload _ => 4
  | .returned => 0

/-- A bound on the steps that are left. -/
def QueueState.steps (limits : QueueLimits) (s : QueueState) : ℕ :=
  16 * s.pending.length + 15 * s.filling.length + 14 * s.giving.length + stageSteps s.mutex + 3 * s.uploadQueue.length +
    s.phase.steps limits.parallelTarballs

attribute [local simp] QueueState.steps stageSteps FinishStage.steps QueuePhase.steps

theorem QueueStep.steps_lt {limits : QueueLimits} {s s' : QueueState} (h : QueueStep limits s s') :
    s'.steps limits < s.steps limits := by
  cases h with
  | deque _ hlist _ | fill hlist =>
    simp [hlist]
    omega
  | enqueueBack hgiving _ _ => simp [hgiving]
  | lock hgiving _ hmutex =>
    simp [hgiving, hmutex]
    omega
  | drain hmutex _ hqueue =>
    simp [hmutex, hqueue]
    omega
  | finishDrain hphase hqueue =>
    simp [hphase, hqueue]
    omega
  | upload hmutex _ =>
    simp [hmutex]
    omega
  | closeTarball hmutex _ | crash hmutex _ | await hmutex _ | drained hmutex _ | renew hmutex _ | unlock hmutex =>
    simp [hmutex]
  | finishDeque hphase _ _ =>
    simp [hphase]
    omega
  | finishQueue hphase _ | finishSkip hphase _ _ | finishClose hphase | finishAwait hphase _ | finishDequed hphase
  | finishUpload hphase _
  | finished hphase _ =>
    simp [hphase]

end Measure

section Tokens

/-- Whether the tarball that is finished was not yet replaced. -/
def FinishStage.held : FinishStage → ℕ
  | .unlocking => 0
  | _ => 1

def heldTokens (mutex : Option FinishStage) : ℕ := (mutex.map FinishStage.held).getD 0

/-- The tarballs that `FinishQueue` has not taken. -/
def QueuePhase.left (parallelTarballs : ℕ) : QueuePhase → ℕ
  | .working => parallelTarballs
  | .dequeing left => left
  | .closing _ left => left
  | .awaiting _ left => left
  | _ => 0

/-- Every tarball to fill is in the queue, with a worker or with the goroutine that replaces it, and the queue of
finished tarballs is longer than its limit only while it is drained. -/
structure QueueTokens (limits : QueueLimits) (s : QueueState) : Prop where
  tokens : s.tarsToFillQueue.length + s.filling.length + s.giving.length + heldTokens s.mutex =
    s.phase.left limits.parallelTarballs
  left_le : s.phase.left limits.parallelTarballs ≤ limits.parallelTarballs
  room : s.mutex ≠ some .draining → s.uploadQueue.length ≤ limits.maxUploadQueue
  short : s.uploadQueue.length ≤ limits.maxUploadQueue + 1
  pending : s.phase ≠ .working → s.pending = []
  returned : s.phase = .returned → s.uploadQueue = []

namespace QueueTokens

variable {limits : QueueLimits} {s s' : QueueState}

theorem start (limits : QueueLimits) (tasks : List FillTask) : QueueTokens limits (limits.startQueue tasks) where
  tokens := by simp [QueueLimits.startQueue, heldTokens, QueuePhase.left]
  left_le := le_rfl
  room _ := Nat.zero_le _
  short := Nat.zero_le _
  pending h := absurd rfl h
  returned := nofun

attribute [local simp] heldTokens FinishStage.held QueuePhase.left

theorem step (h : QueueTokens limits s) (hstep : QueueStep limits s s') : QueueTokens limits s' := by
  have htokens := h.tokens
  cases hstep with
  | deque hphase _ hqueue =>
    refine { h with tokens := ?_, pending := fun hne => absurd hphase hne }
    simp [hqueue] at htokens ⊢
    omega
  | fill hlist | enqueueBack hlist _ _ =>
    refine { h with tokens := ?_ }
    simp [hlist] at htokens ⊢
    omega
  | lock hgiving _ hmutex =>
    refine { h with tokens := ?_, room := fun _ => h.room (by simp [hmutex]) }
    simp [hgiving, hmutex] at htokens ⊢
    omega
  | upload hmutex _ =>
    rw [hmutex] at htokens
    refine { h with tokens := htokens, room := fun hne => absurd rfl hne, short := ?_, returned := fun hphase => ?_ }
    · simpa using h.room (by simp [hmutex])
    · rw [show s.phase = .returned from hphase] at htokens
      cases htokens
  | drain hmutex _ hqueue =>
    have hshort := h.short
    rw [hmutex] at htokens
    rw [hqueue, length_cons] at hshort
    refine { h with tokens := htokens, room := fun _ => Nat.le_of_succ_le_succ hshort
                    short := Nat.le_of_succ_le hshort, returned := fun hphase => ?_ }
    simpa [hqueue] using h.returned hphase
  | closeTarball hmutex _ | crash hmutex _ | unlock hmutex =>
    rw [hmutex] at htokens
    exact { h with tokens := htokens, room := fun _ => h.room (by simp [hmutex]) }
  | await hmutex _ =>
    rw [hmutex] at htokens
    exact { h with tokens := htokens, room := fun hne => absurd rfl hne }
  | drained hmutex hshort =>
    rw [hmutex] at htokens
    exact { h with tokens := htokens, room := fun _ => not_lt.mp hshort }
  | renew hmutex _ =>
    refine { h with tokens := ?_, room := fun _ => h.room (by simp [hmutex]) }
    simp [hmutex] at htokens ⊢
    omega
  | finishQueue hphase hpending =>
    rw [hphase] at htokens
    exact { h with tokens := htokens, left_le := le_rfl, pending := fun _ => hpending, returned := fun hne => by cases hne }
  | finishDeque hphase hqueue _ | finishSkip hphase hqueue _ =>
    have hle := h.left_le
    refine { h with tokens := ?_, left_le := ?_, pending := fun _ => h.pending (by simp [hphase])
                    returned := fun hne => by cases hne }
    · simp [hphase, hqueue] at htokens ⊢
      omega
    · simp [hphase] at hle ⊢
      omega
  | finishClose hphase | finishAwait hphase _ | finishDequed hphase | finishUpload hphase _ =>
    have hle := h.left_le
    rw [hphase] at htokens hle
    exact { h with tokens := htokens, left_le := hle, pending := fun _ => h.pending (by simp [hphase])
                   returned := fun hne => by cases hne }
  | finishDrain hphase hqueue =>
    have hle := h.left_le
    have hroom := h.room
    have hshort := h.short
    rw [hphase] at htokens hle
    rw [hqueue, length_cons] at hroom hshort
    exact ⟨htokens, hle, fun hne => Nat.le_of_succ_le (hroom hne), Nat.le_of_succ_le hshort,
      fun _ => h.pending (by simp [hphase]), fun hne => by cases hne⟩
  | finished hphase hqueue =>
    have hle := h.left_le
    rw [hphase] at htokens hle
    exact { h with tokens := htokens, left_le := hle, pending := fun _ => h.pending (by simp [hphase])
                   returned := fun _ => hqueue }

end QueueTokens

end Tokens

end WalG.Backup
