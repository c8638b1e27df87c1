import WalG.Backup.TarBallQueue

/-! # No tarball is lost

A tarball is not closed before it leaves the hands of the workers, and closed once when it does.
-/
namespace WalG.Backup
open Foundation List

section Locations

def FinishStage.fresh : FinishStage → Multiset TarBall
  | .closing tarBall => {tarBall}
  | .crashed tarBall => {tarBall}
  | _ => 0

def FinishStage.closed : FinishStage → Multiset TarBall
  | .uploading tarBall => {tarBall}
  | .awaiting tarBall => {tarBall}
  | _ => 0

def QueuePhase.fresh : QueuePhase → Multiset TarBall
  | .closing tarBall _ => {tarBall}
  | _ => 0

def QueuePhase.closed : QueuePhase → Multiset TarBall
  | .awaiting tarBall _ => {tarBall}
  | .awaitingUpload tarBall => {tarBall}
  | _ => 0

namespace QueueState

variable (s : QueueState)

/-- The tarballs that are not closed. -/
def fresh : Multiset TarBall :=
  s.tarsToFillQueue + (s.filling.map Prod.snd : Multiset TarBall) + (s.giving.map Prod.snd : Multiset TarBall) +
    (s.mutex.map FinishStage.fresh).getD 0 + s.phase.fresh

/-- The tarballs that are closed and whose uploads are to be awaited. -/
def closed : Multiset TarBall := s.uploadQueue + (s.mutex.map FinishStage.closed).getD 0 + s.phase.closed

end QueueState

end Locations

namespace TarBall

variable {tarBall : TarBall}

/-- Closed once if it was set up, and awaited after that. -/
def Finished (tarBall : TarBall) : Prop := tarBall.isSetUp → tarBall.closings = 1 ∧ tarBall.awaited = true

theorem uploaded_of_closed (h : tarBall.closings = 1) : tarBall.Uploaded := fun _ => by
  rw [h]
  exact Nat.one_pos

theorem finished_awaitUploads (h : tarBall.closings = 1) : tarBall.awaitUploads.Finished := fun _ =>
  ⟨h, decide_eq_true (h ▸ Nat.one_pos)⟩

end TarBall

/-- Every tarball that was made is somewhere, and is closed or not as its place says. -/
structure QueueTarBalls (s : QueueState) : Prop where
  fresh : ∀ tarBall ∈ s.fresh, tarBall.closings = 0
  closed : ∀ tarBall ∈ s.closed, tarBall.closings = 1
  gone : ∀ tarBall ∈ s.gone, tarBall.Finished
  made : s.fresh.card + s.closed.card + s.gone.length = s.made

namespace QueueTarBalls

variable {limits : QueueLimits} {s s' : QueueState} {tarBall tarBall' : TarBall}

theorem start (limits : QueueLimits) (tasks : List FillTask) : QueueTarBalls (limits.startQueue tasks) where
  fresh tarBall h := by
    simp only [QueueState.fresh, QueueLimits.startQueue, map_nil, Option.map_none, Option.getD_none,
      QueuePhase.fresh, Multiset.coe_nil, add_zero, Multiset.mem_coe] at h
    obtain ⟨i, -, rfl⟩ := mem_map.mp h
    rfl
  closed _ h := by simp [QueueState.closed, QueueLimits.startQueue, QueuePhase.closed] at h
  gone := nofun
  made := by simp [QueueState.fresh, QueueState.closed, QueueLimits.startQueue, QueuePhase.fresh, QueuePhase.closed]

theorem count_cons_eq (a b : TarBall) (l : List TarBall) : count a (b :: l) = count a l + if a = b then 1 else 0 := by
  simp only [count_cons, beq_iff_eq, @eq_comm _ b]

attribute [local simp] QueueState.fresh QueueState.closed FinishStage.fresh FinishStage.closed QueuePhase.fresh
  QueuePhase.closed count_cons_eq Multiset.count_cons Multiset.count_singleton

-- the places of a state are compared by the number of times they have a tarball
variable (h : QueueTarBalls s)

include h

theorem of_eq (hfresh : s'.fresh = s.fresh) (hclosed : s'.closed = s.closed)
    (hgone : s'.gone = s.gone) (hmade : s'.made = s.made) : QueueTarBalls s' :=
  ⟨hfresh ▸ h.fresh, hclosed ▸ h.closed, hgone ▸ h.gone, by rw [hfresh, hclosed, hgone, hmade, h.made]⟩

theorem of_fill {rest : Multiset TarBall} (hbefore : s.fresh = tarBall ::ₘ rest)
    (hafter : s'.fresh = tarBall' ::ₘ rest) (hclosings : tarBall'.closings = tarBall.closings)
    (hclosed : s'.closed = s.closed) (hgone : s'.gone = s.gone) (hmade : s'.made = s.made) : QueueTarBalls s' := by
  obtain ⟨hfresh, hclosed', hgone', hcount⟩ := h
  rw [hbefore] at hfresh hcount
  rw [Multiset.forall_mem_cons] at hfresh
  refine ⟨?_, hclosed ▸ hclosed', hgone ▸ hgone', ?_⟩
  · rw [hafter, Multiset.forall_mem_cons]
    exact ⟨hclosings.trans hfresh.1, hfresh.2⟩
  · rw [hafter, hclosed, hgone, hmade, ← hcount, Multiset.card_cons, Multiset.card_cons]

theorem of_close (hfresh : s.fresh = tarBall ::ₘ s'.fresh)
    (hclosed : s'.closed = tarBall.closeTar ::ₘ s.closed) (hgone : s'.gone = s.gone) (hmade : s'.made = s.made) :
    QueueTarBalls s' := by
  obtain ⟨hfresh', hclosed', hgone', hcount⟩ := h
  rw [hfresh] at hfresh' hcount
  rw [Multiset.forall_mem_cons] at hfresh'
  refine ⟨hfresh'.2, ?_, hgone ▸ hgone', ?_⟩
  · rw [hclosed, Multiset.forall_mem_cons]
    exact ⟨congrArg (· + 1) hfresh'.1, hclosed'⟩
  · rw [hclosed, hgone, hmade, ← hcount, Multiset.card_cons, Multiset.card_cons]
    omega

theorem of_await (hfresh : s'.fresh = s.fresh) (hclosed : s.closed = tarBall ::ₘ s'.closed)
    (hgone : s'.gone = tarBall.awaitUploads :: s.gone) (hmade : s'.made = s.made) : QueueTarBalls s' := by
  obtain ⟨hfresh', hclosed', hgone', hcount⟩ := h
  rw [hclosed] at hclosed' hcount
  rw [Multiset.forall_mem_cons] at hclosed'
  refine ⟨hfresh ▸ hfresh', hclosed'.2, ?_, ?_⟩
  · rw [hgone, forall_mem_cons]
    exact ⟨TarBall.finished_awaitUploads hclosed'.1, hgone'⟩
  · rw [hfresh, hgone, hmade, ← hcount, Multiset.card_cons, length_cons]
    omega

theorem of_skip (hfresh : s.fresh = tarBall ::ₘ s'.fresh) (hsetUp : ¬ tarBall.isSetUp)
    (hclosed : s'.closed = s.closed) (hgone : s'.gone = tarBall :: s.gone) (hmade : s'.made = s.made) :
    QueueTarBalls s' := by
  obtain ⟨hfresh', hclosed', hgone', hcount⟩ := h
  rw [hfresh] at hfresh' hcount
  rw [Multiset.forall_mem_cons] at hfresh'
  refine ⟨hfresh'.2, hclosed ▸ hclosed', ?_, ?_⟩
  · rw [hgone, forall_mem_cons]
    exact ⟨fun h => absurd h hsetUp, hgone'⟩
  · rw [hclosed, hgone, hmade, ← hcount, Multiset.card_cons, length_cons]
    omega

theorem of_renew (hnew : tarBall.closings = 0) (hfresh : s'.fresh = tarBall ::ₘ s.fresh)
    (hclosed : s'.closed = s.closed) (hgone : s'.gone = s.gone) (hmade : s'.made = s.made + 1) : QueueTarBalls s' := by
  refine ⟨?_, hclosed ▸ h.closed, hgone ▸ h.gone, ?_⟩
  · rw [hfresh, Multiset.forall_mem_cons]
    exact ⟨hnew, h.fresh⟩
  · rw [hfresh, hclosed, hgone, hmade, ← h.made, Multiset.card_cons]
    omega

theorem step (hstep : QueueStep limits s s') : QueueTarBalls s' := by
  cases hstep with
  | deque _ _ hqueue =>
    refine h.of_eq (Multiset.ext.mpr fun a => ?_) rfl rfl rfl
    simp [hqueue]
    omega
  | @fill before task tarBall after hfilling =>
    refine @of_fill s _ tarBall (tarBall.fill task) h (s.tarsToFillQueue +
      ((before ++ after).map Prod.snd : Multiset TarBall) + (s.giving.map Prod.snd : Multiset TarBall) +
        (s.mutex.map FinishStage.fresh).getD 0 + s.phase.fresh) (Multiset.ext.mpr fun a => ?_)
      (Multiset.ext.mpr fun a => ?_) rfl rfl rfl rfl
    all_goals
      simp [hfilling]
      omega
  | enqueueBack hgiving _ _ =>
    refine h.of_eq (Multiset.ext.mpr fun a => ?_) rfl rfl rfl
    simp [hgiving]
    omega
  | lock hgiving _ hmutex =>
    refine h.of_eq (Multiset.ext.mpr fun a => ?_) (by simp [hmutex]) rfl rfl
    simp [hgiving, hmutex]
    omega
  | @closeTarball tarBall hmutex _ =>
    refine @of_close s _ tarBall h (Multiset.ext.mpr fun a => ?_) (Multiset.ext.mpr fun a => ?_) rfl rfl
    all_goals
      simp [hmutex]
      omega
  | crash hmutex _ | drained hmutex _ | unlock hmutex => exact h.of_eq (by simp [hmutex]) (by simp [hmutex]) rfl rfl
  | upload hmutex _ =>
    refine h.of_eq (by simp [hmutex]) (Multiset.ext.mpr fun a => ?_) rfl rfl
    simp [hmutex]
  | drain hmutex _ hqueue =>
    refine h.of_eq (by simp [hmutex]) (Multiset.ext.mpr fun a => ?_) rfl rfl
    simp [hmutex, hqueue]
  | await hmutex _ =>
    refine h.of_await (by simp [hmutex]) (Multiset.ext.mpr fun a => ?_) rfl rfl
    simp [hmutex]
    omega
  | renew hmutex _ =>
    refine @of_renew s _ { partNumber := s.made + 1 } h rfl (Multiset.ext.mpr fun a => ?_) (by simp [hmutex]) rfl rfl
    simp [hmutex]
    omega
  | finishQueue hphase _ | finishDequed hphase | finished hphase _ =>
    exact h.of_eq (by simp [hphase]) (by simp [hphase]) rfl rfl
  | finishDeque hphase hqueue _ =>
    refine h.of_eq (Multiset.ext.mpr fun a => ?_) (by simp [hphase]) rfl rfl
    simp [hphase, hqueue]
    omega
  | finishSkip hphase hqueue hsetUp =>
    refine h.of_skip (Multiset.ext.mpr fun a => ?_) hsetUp (by simp [hphase]) rfl rfl
    simp [hphase, hqueue]
    omega
  | @finishClose tarBall left hphase =>
    refine @of_close s _ tarBall h (Multiset.ext.mpr fun a => ?_) (Multiset.ext.mpr fun a => ?_) rfl rfl
    all_goals simp [hphase]
  | finishAwait hphase _ | finishUpload hphase _ =>
    refine h.of_await (by simp [hphase]) (Multiset.ext.mpr fun a => ?_) rfl rfl
    simp [hphase]
  | finishDrain hphase hqueue =>
    refine h.of_eq (by simp [hphase]) (Multiset.ext.mpr fun a => ?_) rfl rfl
    simp [hphase, hqueue]
    omega

end QueueTarBalls

/-- What holds in every interleaving. -/
structure QueueInv (limits : QueueLimits) (s : QueueState) : Prop where
  tokens : QueueTokens limits s
  tarBalls : QueueTarBalls s

namespace QueueInv

variable {limits : QueueLimits} {tasks : List FillTask} {s : QueueState}

theorem of_reaches (hreach : Relation.ReflTransGen (QueueStep limits) (limits.startQueue tasks) s) :
    QueueInv limits s :=
  invariant_of_steps (fun _ _ h hstep => ⟨h.tokens.step hstep, h.tarBalls.step hstep⟩)
    (QueueInv.mk (.start limits tasks) (.start limits tasks)) hreach

variable (h : QueueInv limits s)

include h

theorem closings_of_mutex {stage : FinishStage} {tarBall : TarBall}
    (hmutex : s.mutex = some stage) (hmem : tarBall ∈ stage.closed) : tarBall.closings = 1 := by
  refine h.tarBalls.closed tarBall ?_
  simp [QueueState.closed, hmutex, hmem]

theorem closings_of_phase {tarBall : TarBall} (hmem : tarBall ∈ s.phase.closed) : tarBall.closings = 1 := by
  refine h.tarBalls.closed tarBall ?_
  simp [QueueState.closed, hmem]

theorem exists_step_holder (hparallel : 0 < limits.parallelTarballs) {stage : FinishStage}
    (hmutex : s.mutex = some stage) (hcrashed : ¬ s.Crashed) : ∃ s', QueueStep limits s s' := by
  have htokens := h.tokens.tokens
  have hle := h.tokens.left_le
  cases stage with
  | closing tarBall =>
    by_cases hsetUp : tarBall.isSetUp
    · exact ⟨_, .closeTarball hmutex hsetUp⟩
    · exact ⟨_, .crash hmutex hsetUp⟩
  | uploading tarBall =>
    have hroom := h.tokens.room (by rw [hmutex]; simp)
    exact ⟨_, .upload hmutex (by omega)⟩
  | draining =>
    by_cases hlong : limits.maxUploadQueue < s.uploadQueue.length
    · obtain ⟨tarBall, queue, hqueue⟩ := exists_cons_of_length_pos (Nat.zero_lt_of_lt hlong)
      exact ⟨_, .drain hmutex hlong hqueue⟩
    · exact ⟨_, .drained hmutex hlong⟩
  | awaiting tarBall =>
    have hclosed : tarBall.closings = 1 := h.closings_of_mutex hmutex (Multiset.mem_singleton_self _)
    exact ⟨_, .await hmutex (TarBall.uploaded_of_closed hclosed)⟩
  | renewing =>
    rw [hmutex] at htokens
    simp only [heldTokens, FinishStage.held, Option.map_some, Option.getD_some] at htokens
    exact ⟨_, .renew hmutex (by omega)⟩
  | unlocking => exact ⟨_, .unlock hmutex⟩
  | crashed tarBall => exact absurd ⟨tarBall, hmutex⟩ hcrashed

/-- A worker that gives its tarball back finds room in the queue, or takes the mutex. -/
theorem exists_step_giving (hmutex : s.mutex = none) (hgiving : s.giving ≠ []) : ∃ s', QueueStep limits s s' := by
  obtain ⟨⟨how, tarBall⟩, rest, hcons⟩ := exists_cons_of_ne_nil hgiving
  by_cases hhow : limits.Enqueues how tarBall
  · have htokens := h.tokens.tokens
    have hle := h.tokens.left_le
    rw [hcons, length_cons] at htokens
    exact ⟨_, @QueueStep.enqueueBack limits s [] how tarBall rest hcons hhow (by omega)⟩
  · exact ⟨_, @QueueStep.lock limits s [] how tarBall rest hcons hhow hmutex⟩

/-- With all tarballs in the queue, the workers or `FinishQueue` can go on. -/
theorem exists_step_phase (hparallel : 0 < limits.parallelTarballs)
    (hall : s.tarsToFillQueue.length = s.phase.left limits.parallelTarballs) (hreturned : s.phase ≠ .returned) :
    ∃ s', QueueStep limits s s' := by
  cases hphase : s.phase with
  | working =>
    cases hpending : s.pending with
    | nil => exact ⟨_, .finishQueue hphase hpending⟩
    | cons task rest =>
      rw [hphase] at hall
      have hpos : 0 < s.tarsToFillQueue.length := hall.symm ▸ hparallel
      obtain ⟨tarBall, queue, hqueue⟩ := exists_cons_of_length_pos hpos
      exact ⟨_, @QueueStep.deque limits s [] task rest tarBall queue hphase hpending hqueue⟩
  | dequeing left =>
    cases left with
    | zero => exact ⟨_, .finishDequed hphase⟩
    | succ left =>
      rw [hphase] at hall
      have hpos : 0 < s.tarsToFillQueue.length := hall.symm ▸ Nat.succ_pos left
      obtain ⟨tarBall, queue, hqueue⟩ := exists_cons_of_length_pos hpos
      by_cases hsetUp : tarBall.isSetUp
      · exact ⟨_, .finishDeque hphase hqueue hsetUp⟩
      · exact ⟨_, .finishSkip hphase hqueue hsetUp⟩
  | closing tarBall left => exact ⟨_, .finishClose hphase⟩
  | awaiting tarBall left =>
    have hclosed : tarBall.closings = 1 := h.closings_of_phase (by rw [hphase]; exact Multiset.mem_singleton_self _)
    exact ⟨_, .finishAwait hphase (TarBall.uploaded_of_closed hclosed)⟩
  | draining =>
    cases hqueue : s.uploadQueue with
    | nil => exact ⟨_, .finished hphase hqueue⟩
    | cons tarBall queue => exact ⟨_, .finishDrain hphase hqueue⟩
  | awaitingUpload tarBall =>
    have hclosed : tarBall.closings = 1 := h.closings_of_phase (by rw [hphase]; exact Multiset.mem_singleton_self _)
    exact ⟨_, .finishUpload hphase (TarBall.uploaded_of_closed hclosed)⟩
  | returned => exact absurd hphase hreturned

theorem exists_step (hparallel : 0 < limits.parallelTarballs) (hended : ¬ s.Ended) : ∃ s', QueueStep limits s s' := by
  obtain ⟨hreturned, hcrashed⟩ := not_or.mp hended
  cases hmutex : s.mutex with
  | some stage => exact h.exists_step_holder hparallel hmutex hcrashed
  | none =>
    by_cases hfilling : s.filling = []
    · by_cases hgiving : s.giving = []
      · have htokens := h.tokens.tokens
        rw [hfilling, hgiving, hmutex] at htokens
        exact h.exists_step_phase hparallel htokens hreturned
      · exact h.exists_step_giving hmutex hgiving
    · obtain ⟨⟨task, tarBall⟩, rest, hcons⟩ := exists_cons_of_ne_nil hfilling
      exact ⟨_, @QueueStep.fill limits s [] task tarBall rest hcons⟩

/-- When `FinishQueue` returns, nobody holds a tarball any more. -/
theorem returned (hphase : s.phase = .returned) : s.gone.length = s.made ∧ ∀ tarBall ∈ s.gone, tarBall.Finished := by
  have htokens := h.tokens.tokens
  have hmade := h.tarBalls.made
  rw [hphase] at htokens
  simp only [QueuePhase.left, Nat.add_eq_zero_iff, length_eq_zero_iff] at htokens
  obtain ⟨⟨⟨hqueue, hfilling⟩, hgiving⟩, hheld⟩ := htokens
  have hmutex : s.mutex = none ∨ s.mutex = some .unlocking := by
    cases hmutex : s.mutex with
    | none => exact .inl rfl
    | some stage =>
      rw [hmutex] at hheld
      cases stage with
      | unlocking => exact .inr rfl
      | _ => cases hheld
  have hfresh : s.fresh = 0 := by
    rcases hmutex with hmutex | hmutex <;>
      simp [QueueState.fresh, hqueue, hfilling, hgiving, hmutex, hphase, FinishStage.fresh, QueuePhase.fresh]
  have hclosed : s.closed = 0 := by
    rcases hmutex with hmutex | hmutex <;>
      simp [QueueState.closed, h.tokens.returned hphase, hmutex, hphase, FinishStage.closed, QueuePhase.closed]
  rw [hfresh, hclosed, Multiset.card_zero, Nat.zero_add] at hmade
  exact ⟨hmade, h.tarBalls.gone⟩

end QueueInv

section Crash

/-- A worker writes to a tarball, and finishes it, only with a tar writer. -/
def FillTask.Proper (task : FillTask) : Prop :=
  (task.giveBack = .finishTarBall → task.setUp) ∧ (0 < task.written → task.setUp)

def TarBall.WrittenSetUp (tarBall : TarBall) : Prop := 0 < tarBall.size → tarBall.isSetUp

theorem TarBall.writtenSetUp_fill {tarBall : TarBall} {task : FillTask} (h : tarBall.WrittenSetUp)
    (htask : task.Proper) : (tarBall.fill task).WrittenSetUp := by
  intro hsize
  simp only [fill, Bool.or_eq_true] at hsize ⊢
  rcases Nat.add_pos_iff_pos_or_pos.mp hsize with hsize | hwritten
  · exact .inl (h hsize)
  · exact .inr (htask.2 hwritten)

/-- Whatever has bytes has a writer, and so has what is finished. -/
structure QueueProper (s : QueueState) : Prop where
  pending : ∀ task ∈ s.pending, task.Proper
  queue : ∀ tarBall ∈ s.tarsToFillQueue, tarBall.WrittenSetUp
  filling : ∀ pair ∈ s.filling, pair.1.Proper ∧ pair.2.WrittenSetUp
  giving : ∀ pair ∈ s.giving, (pair.1 = .finishTarBall → pair.2.isSetUp) ∧ pair.2.WrittenSetUp
  closing : ∀ tarBall, s.mutex = some (.closing tarBall) → tarBall.isSetUp
  crashed : ¬ s.Crashed

namespace QueueProper

variable {limits : QueueLimits} {s s' : QueueState}

theorem start (limits : QueueLimits) {tasks : List FillTask} (h : ∀ task ∈ tasks, task.Proper) :
    QueueProper (limits.startQueue tasks) where
  pending := h
  queue tarBall hmem := by
    obtain ⟨i, -, rfl⟩ := mem_map.mp hmem
    exact fun hsize => absurd hsize (lt_irrefl 0)
  filling := nofun
  giving := nofun
  closing := nofun
  crashed := by
    rintro ⟨tarBall, hmutex⟩
    cases hmutex

theorem step (h : QueueProper s) (hstep : QueueStep limits s s') : QueueProper s' := by
  obtain ⟨hpending, hqueue, hfilling, hgiving, hclosing, hcrashed⟩ := h
  cases hstep with
  | deque _ hsplit hcons =>
    rw [hsplit, forall_mem_append, forall_mem_cons] at hpending
    rw [hcons, forall_mem_cons] at hqueue
    refine ⟨forall_mem_append.mpr ⟨hpending.1, hpending.2.2⟩, hqueue.2, ?_, hgiving, hclosing, hcrashed⟩
    exact forall_mem_cons.mpr ⟨⟨hpending.2.1, hqueue.1⟩, hfilling⟩
  | fill hsplit =>
    rw [hsplit, forall_mem_append, forall_mem_cons] at hfilling
    obtain ⟨hbefore, ⟨htask, hwritten⟩, hafter⟩ := hfilling
    refine ⟨hpending, hqueue, forall_mem_append.mpr ⟨hbefore, hafter⟩, ?_, hclosing, hcrashed⟩
    refine forall_mem_cons.mpr ⟨⟨fun hfinish => ?_, TarBall.writtenSetUp_fill hwritten htask⟩, hgiving⟩
    exact Bool.or_eq_true_iff.mpr (.inr (htask.1 hfinish))
  | enqueueBack hsplit _ _ =>
    rw [hsplit, forall_mem_append, forall_mem_cons] at hgiving
    refine ⟨hpending, ?_, hfilling, forall_mem_append.mpr ⟨hgiving.1, hgiving.2.2⟩, hclosing, hcrashed⟩
    exact forall_mem_append.mpr ⟨hqueue, forall_mem_singleton.mpr hgiving.2.1.2⟩
  | @lock before how tarBall after hsplit hhow _ =>
    rw [hsplit, forall_mem_append, forall_mem_cons] at hgiving
    obtain ⟨hbefore, ⟨hfinish, hwritten⟩, hafter⟩ := hgiving
    refine ⟨hpending, hqueue, hfilling, forall_mem_append.mpr ⟨hbefore, hafter⟩, fun tarBall' hmutex => ?_, ?_⟩
    · obtain rfl : tarBall = tarBall' := FinishStage.closing.inj (Option.some.inj hmutex)
      cases how with
      | enqueueBack => exact absurd (.inl rfl) hhow
      | checkSizeAndEnqueueBack =>
        have hsize : limits.tarSizeThreshold < tarBall.size := by
          by_contra hle
          exact hhow (.inr ⟨rfl, hle⟩)
        exact hwritten (Nat.zero_lt_of_lt hsize)
      | finishTarBall => exact hfinish rfl
    · rintro ⟨tarBall', hmutex⟩
      cases hmutex
  | crash hmutex hsetUp => exact absurd (hclosing _ hmutex) hsetUp
  | closeTarball | upload | drain | await | drained | unlock =>
    refine ⟨hpending, hqueue, hfilling, hgiving, fun tarBall hmutex => (by cases hmutex), ?_⟩
    rintro ⟨tarBall, hmutex⟩
    cases hmutex
  | renew =>
    refine ⟨hpending, ?_, hfilling, hgiving, fun tarBall hmutex => (by cases hmutex), ?_⟩
    · refine forall_mem_append.mpr ⟨hqueue, forall_mem_singleton.mpr ?_⟩
      exact fun hsize => absurd hsize (lt_irrefl 0)
    · rintro ⟨tarBall, hmutex⟩
      cases hmutex
  | finishDeque _ hcons _ | finishSkip _ hcons _ =>
    rw [hcons, forall_mem_cons] at hqueue
    exact ⟨hpending, hqueue.2, hfilling, hgiving, hclosing, hcrashed⟩
  | finishQueue | finishClose | finishAwait | finishDequed | finishDrain | finishUpload | finished =>
    exact ⟨hpending, hqueue, hfilling, hgiving, hclosing, hcrashed⟩

end QueueProper

end Crash

/-- In every interleaving no operation blocks for ever, and when `FinishQueue` returns every tarball that was made has
been given up, closed once if it was set up, and awaited after that. A worker crashes only on a tarball without a
writer. -/
theorem tarBallQueue_conserves {limits : QueueLimits} (hparallel : 0 < limits.parallelTarballs)
    (tasks : List FillTask) :
    Completes (QueueStep limits) (limits.startQueue tasks) QueueState.Ended (fun s => s.phase = .returned →
      s.gone.length = s.made ∧ ∀ tarBall ∈ s.gone, tarBall.Finished) ∧
    ((∀ task ∈ tasks, task.Proper) →
      ∀ s, Relation.ReflTransGen (QueueStep limits) (limits.startQueue tasks) s → ¬ s.Crashed) := by
  constructor
  · exact ⟨fun s hreach hended => (QueueInv.of_reaches hreach).exists_step hparallel hended,
      fun run _ => exists_no_step_of_measure (QueueState.steps limits) (fun _ _ hstep => hstep.steps_lt) run,
      fun s hreach _ hphase => (QueueInv.of_reaches hreach).returned hphase⟩
  · intro hproper s hreach
    exact (invariant_of_steps (fun _ _ h hstep => h.step hstep) (QueueProper.start limits hproper) hreach).crashed

/-- Two tarballs, three workers and no place for finished tarballs. -/
theorem tarBallQueue_conserves_three : Completes (QueueStep ⟨2, 0, 100⟩) (QueueLimits.startQueue ⟨2, 0, 100⟩
      [⟨true, 200, .checkSizeAndEnqueueBack⟩, ⟨false, 0, .enqueueBack⟩, ⟨true, 10, .finishTarBall⟩])
      QueueState.Ended (fun s => s.phase = .returned →
        s.gone.length = s.made ∧ ∀ tarBall ∈ s.gone, tarBall.Finished) :=
  (@tarBallQueue_conserves ⟨2, 0, 100⟩ (by decide) _).1

end WalG.Backup
