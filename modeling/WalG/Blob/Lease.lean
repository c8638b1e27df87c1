import WalG.Blob.Server

/-! # Leases of a blob

A lease excludes the data requests that carry another id, or none, until it ends.
-/
namespace WalG.Blob
open Foundation

/-- The recorded lease, with its end in nanoseconds. -/
structure Lease where
  id : Text
  endTime : ℤ
  deriving DecidableEq, Repr

inductive Status where
  | created
  | ok
  | badRequest
  | notFound
  | preconditionFailed
  deriving DecidableEq, Repr

inductive LeaseState where
  | available
  | leased
  | expired
  deriving DecidableEq, Repr

structure LeaseHeaders where
  state : LeaseState
  duration : Option Text := none
  status : Option Text := none
  deriving DecidableEq, Repr

/-- The headers of a lease request; a header that is not sent is empty. An acquisition reads the
clock again when it grants the lease, and makes up an id if none is proposed. -/
inductive LeaseRequest where
  | acquire (proposedLeaseID leaseDuration : Text) (uuid : { id : Text // id ≠ [] }) (granted : ℤ)
  | renew (leaseID leaseDuration : Text)
  | change (leaseID proposedLeaseID : Text)
  | release (leaseID : Text)

def defaultDuration : Text := "31536000".toList

/-- The duration in seconds, a year if none is asked for. -/
def parseDuration (leaseDuration : Text) : Option ℤ :=
  atoi (if leaseDuration = [] then defaultDuration else leaseDuration)

/-- The product with the nanoseconds of a second is one of 64 bits. -/
def endAfter (now seconds : ℤ) : ℤ := now + Int.bmod (seconds * 10 ^ 9) (2 ^ 64)

section Handlers

variable (lease : Option Lease) (now : ℤ)

def acquiredID (proposedLeaseID : Text) (uuid : { id : Text // id ≠ [] }) : Text :=
  if proposedLeaseID = [] then uuid else proposedLeaseID

/-- A lease that has not ended before stays, whoever asks. -/
def handleAcquireLease (proposedLeaseID leaseDuration : Text) (uuid : { id : Text // id ≠ [] }) (granted : ℤ) :
    Status × Option Lease :=
  match parseDuration leaseDuration with
  | none => (.badRequest, lease)
  | some seconds =>
    let leaseID := acquiredID proposedLeaseID uuid
    let lease' := match lease with
      | none => ⟨leaseID, endAfter granted seconds⟩
      | some old => if old.endTime < now then ⟨leaseID, endAfter granted seconds⟩ else old
    (if lease'.id = leaseID then .created else .preconditionFailed, some lease')

/-- What the other handlers have in common: only the recorded id is served. -/
def withLease (leaseID : Text) (serve : Lease → Option Lease) : Status × Option Lease :=
  match lease with
  | none => (.preconditionFailed, none)
  | some old => if old.id = leaseID then (.ok, serve old) else (.preconditionFailed, some old)

def handleRenewLease (leaseID leaseDuration : Text) : Status × Option Lease :=
  if leaseID = [] then (.badRequest, lease)
  else
    match parseDuration leaseDuration with
    | none => (.badRequest, lease)
    | some seconds => withLease lease leaseID fun old => some { old with endTime := endAfter now seconds }

def handleChangeLease (leaseID proposedLeaseID : Text) : Status × Option Lease :=
  if leaseID = [] then (.badRequest, lease)
  else if proposedLeaseID = [] then (.badRequest, lease)
  else withLease lease leaseID fun old => some { old with id := proposedLeaseID }

def handleReleaseLease (leaseID : Text) : Status × Option Lease :=
  if leaseID = [] then (.badRequest, lease) else withLease lease leaseID fun _ => none

def handleLease : LeaseRequest → Status × Option Lease
  | .acquire proposedLeaseID leaseDuration uuid granted =>
    handleAcquireLease lease now proposedLeaseID leaseDuration uuid granted
  | .renew leaseID leaseDuration => handleRenewLease lease now leaseID leaseDuration
  | .change leaseID proposedLeaseID => handleChangeLease lease leaseID proposedLeaseID
  | .release leaseID => handleReleaseLease lease leaseID

/-- The error of a request that is kept out by a lease. -/
def checkLease (leaseID : Text) : Option Status :=
  match lease with
  | none => none
  | some old => if now < old.endTime ∧ old.id ≠ leaseID then some .preconditionFailed else none

/-- A lease that has not ended is reported as expired. -/
def setLeaseHeaders (leaseID : Text) : LeaseHeaders :=
  match lease with
  | none => { state := .available }
  | some old =>
    if now < old.endTime then { state := .expired }
    else
      { state := .leased
        duration := some "fixed".toList
        status := if leaseID = old.id then some "locked".toList else none }

end Handlers

/-- The requests on the blob itself. -/
inductive DataRequest where
  | put (request : Request)
  | get
  | delete
  | blockListGet
  | head

namespace DataRequest

/-- A put of a whole blob creates the index, and a deletion does not look at it. -/
def loadsIndex : DataRequest → Bool
  | .put (.putBlob _) => false
  | .delete => false
  | _ => true

/-- The list of the blocks and the properties of the blob are open to everyone. -/
def checksLease : DataRequest → Bool
  | .blockListGet => false
  | .head => false
  | _ => true

end DataRequest

inductive BlobRequest where
  | lease (request : LeaseRequest)
  | data (leaseID : Text) (request : DataRequest)

/-- A request and the time of its first look at the clock. -/
structure Event where
  now : ℤ
  request : BlobRequest

namespace Event

/-- The last look at the clock. -/
def ended (e : Event) : ℤ :=
  match e.request with
  | .lease (.acquire _ _ _ granted) => granted
  | _ => e.now

/-- The request is one of the holder of an id. -/
def Carries (e : Event) (id : Text) : Prop :=
  match e.request with
  | .lease (.acquire _ _ _ _) => False
  | .lease (.renew leaseID _) => leaseID = id
  | .lease (.change leaseID _) => leaseID = id
  | .lease (.release leaseID) => leaseID = id
  | .data leaseID _ => leaseID = id

end Event

/-- The events follow each other on a clock that does not go back. -/
def Chronological : ℤ → List Event → ℤ → Prop
  | start, [], stop => start ≤ stop
  | start, e :: events, stop => start ≤ e.now ∧ e.now ≤ e.ended ∧ Chronological e.ended events stop

theorem Chronological.start_le {start stop : ℤ} {events : List Event} (h : Chronological start events stop) :
    start ≤ stop := by
  induction events generalizing start with
  | nil => exact h
  | cons e events ih => exact h.1.trans (h.2.1.trans (ih h.2.2))

structure LeasedServer where
  lease : Option Lease
  blob : Server

namespace LeasedServer

variable (delete : Server → Server) (s : LeasedServer)

/-- The error before a request is served. -/
def rejection (now : ℤ) (leaseID : Text) (request : DataRequest) : Option Status :=
  if request.loadsIndex ∧ s.blob.index = none then some .notFound
  else if request.checksLease then checkLease s.lease now leaseID
  else none

/-- What becomes of a deleted blob is up to the storage. -/
def serve : DataRequest → Server
  | .put request => s.blob.handle request
  | .delete => delete s.blob
  | _ => s.blob

def step (e : Event) : LeasedServer :=
  match e.request with
  | .lease request => { s with lease := (handleLease s.lease e.now request).2 }
  | .data leaseID request =>
    if s.rejection e.now leaseID request = none then { s with blob := s.serve delete request } else s

def run (events : List Event) : LeasedServer := events.foldl (step delete) s

/-- The id has an unexpired lease. -/
def InForce (now : ℤ) (id : Text) : Prop := ∃ lease, s.lease = some lease ∧ lease.id = id ∧ now < lease.endTime

def RunOut (now : ℤ) : Prop := ∃ lease, s.lease = some lease ∧ lease.endTime ≤ now

end LeasedServer

section Exclusion

variable {lease : Option Lease} {old : Lease} {now : ℤ}

theorem acquiredID_ne (proposedLeaseID : Text) (uuid : { id : Text // id ≠ [] }) :
    acquiredID proposedLeaseID uuid ≠ [] := by
  rw [acquiredID]
  split_ifs with hempty
  · exact uuid.2
  · exact hempty

theorem handleLease_id_ne (hlease : ∀ old, lease = some old → old.id ≠ []) (request : LeaseRequest) :
    ∀ new, (handleLease lease now request).2 = some new → new.id ≠ [] := by
  have hwith : ∀ {leaseID : Text} {serve : Lease → Option Lease},
      (∀ old new, lease = some old → serve old = some new → new.id ≠ []) →
      ∀ new, (withLease lease leaseID serve).2 = some new → new.id ≠ [] := by
    intro leaseID serve hserve new hnew
    cases lease with
    | none => cases hnew
    | some old =>
      simp only [withLease] at hnew
      split_ifs at hnew
      · exact hserve old new rfl hnew
      · exact hlease new hnew
  cases request with
  | acquire proposedLeaseID leaseDuration uuid granted =>
    intro new hnew
    rw [handleLease, handleAcquireLease] at hnew
    split at hnew
    · exact hlease new hnew
    · cases hnew
      cases lease with
      | none => exact acquiredID_ne proposedLeaseID uuid
      | some old =>
        dsimp only
        split_ifs
        · exact acquiredID_ne proposedLeaseID uuid
        · exact hlease old rfl
  | renew leaseID leaseDuration =>
    intro new hnew
    rw [handleLease, handleRenewLease] at hnew
    split_ifs at hnew
    · exact hlease new hnew
    · split at hnew
      · exact hlease new hnew
      · refine hwith (fun old new hold hnew => ?_) new hnew
        cases hnew
        exact hlease old hold
  | change leaseID proposedLeaseID =>
    intro new hnew
    rw [handleLease, handleChangeLease] at hnew
    split_ifs at hnew with hempty hproposed
    · exact hlease new hnew
    · exact hlease new hnew
    · refine hwith (fun old new _ hnew => ?_) new hnew
      cases hnew
      exact hproposed
  | release leaseID =>
    intro new hnew
    rw [handleLease, handleReleaseLease] at hnew
    split_ifs at hnew
    · exact hlease new hnew
    · refine hwith (fun _ _ _ hnone => ?_) new hnew
      cases hnone

theorem withLease_of_ne {leaseID : Text} (hne : leaseID ≠ old.id) (serve : Lease → Option Lease) :
    withLease (some old) leaseID serve = (.preconditionFailed, some old) :=
  if_neg fun heq => hne heq.symm

/-- Up to its end a lease is changed by its holder only. -/
theorem handleLease_keeps (hend : now ≤ old.endTime) {request : LeaseRequest}
    (hother : ¬ Event.Carries ⟨now, .lease request⟩ old.id) : (handleLease (some old) now request).2 = some old := by
  cases request with
  | acquire proposedLeaseID leaseDuration uuid granted =>
    rw [handleLease, handleAcquireLease]
    split
    · rfl
    · simp only [if_neg (not_lt.mpr hend)]
  | renew leaseID leaseDuration =>
    rw [handleLease, handleRenewLease]
    split_ifs
    · rfl
    · split
      · rfl
      · rw [withLease_of_ne hother]
  | change leaseID proposedLeaseID =>
    rw [handleLease, handleChangeLease, withLease_of_ne hother]
    split_ifs <;> rfl
  | release leaseID =>
    rw [handleLease, handleReleaseLease, withLease_of_ne hother]
    split_ifs
    · rfl
    · rfl

theorem handleAcquireLease_other (hend : now ≤ old.endTime) {proposedLeaseID leaseDuration : Text}
    {uuid : { id : Text // id ≠ [] }} (hother : acquiredID proposedLeaseID uuid ≠ old.id) (granted : ℤ) :
    (handleAcquireLease (some old) now proposedLeaseID leaseDuration uuid granted).1 ≠ .created := by
  rw [handleAcquireLease]
  split
  · exact Status.noConfusion
  · simp only [if_neg (not_lt.mpr hend), if_neg hother.symm]
    exact Status.noConfusion

theorem checkLease_eq_none_iff (hend : now < old.endTime) (leaseID : Text) :
    checkLease (some old) now leaseID = none ↔ leaseID = old.id := by
  simp [checkLease, hend, eq_comm]

end Exclusion

namespace LeasedServer

variable {delete : Server → Server} {s : LeasedServer}

theorem id_ne_run (hs : ∀ old, s.lease = some old → old.id ≠ []) (events : List Event) :
    ∀ old, (s.run delete events).lease = some old → old.id ≠ [] := by
  induction events generalizing s with
  | nil => exact hs
  | cons e events ih =>
    refine ih ?_
    rw [step]
    split
    · exact handleLease_id_ne hs _
    · split_ifs
      · exact hs
      · exact hs

/-- While a lease lasts, requests of others change neither it nor the blob. -/
theorem run_of_not_carries {old : Lease} (hs : s.lease = some old) {events : List Event} {start now : ℤ}
    (hclock : Chronological start events now) (hend : now < old.endTime)
    (hother : ∀ e ∈ events, ¬ e.Carries old.id) : s.run delete events = s := by
  induction events generalizing start with
  | nil => rfl
  | cons e events ih =>
    obtain ⟨-, hnow, hrest⟩ := hclock
    have hbefore : e.now < old.endTime := (hnow.trans hrest.start_le).trans_lt hend
    have hcarries := hother e List.mem_cons_self
    have hstep : s.step delete e = s := by
      obtain ⟨time, request⟩ := e
      cases request with
      | lease request =>
        change { s with lease := (handleLease s.lease time request).2 } = s
        rw [hs, handleLease_keeps hbefore.le hcarries, ← hs]
      | data leaseID request =>
        have hkept : checkLease s.lease time leaseID ≠ none := by
          rw [hs, Ne, checkLease_eq_none_iff hbefore]
          exact hcarries
        rw [step]
        dsimp only
        split_ifs with hadmitted
        · rw [rejection] at hadmitted
          split_ifs at hadmitted with hloaded hchecks
          · exact absurd hadmitted hkept
          · -- only requests that change nothing go unchecked
            cases request with
            | put => exact absurd rfl hchecks
            | get => rfl
            | delete => exact absurd rfl hchecks
            | blockListGet => rfl
            | head => rfl
        · rfl
    rw [run, List.foldl_cons, hstep]
    exact ih hrest fun e' he' => hother e' (List.mem_cons_of_mem _ he')

/-- Whatever requests came before, an unexpired lease is the only one, it keeps out the data requests
without its id and no others, no other id is granted one, and without a request of its holder it
and the blob stay as they are until its end. The reported state is right only if there is no lease. -/
theorem lease_excludes (delete : Server → Server) (blob : Server) (events : List Event) (now : ℤ) :
    (∀ id id', (run delete ⟨none, blob⟩ events).InForce now id →
      (run delete ⟨none, blob⟩ events).InForce now id' → id = id') ∧
    (∀ id, (run delete ⟨none, blob⟩ events).InForce now id → id ≠ [] ∧
      (∀ leaseID request, DataRequest.checksLease request = true →
        ((leaseID ≠ id → (run delete ⟨none, blob⟩ events).rejection now leaseID request ≠ none) ∧
          (run delete ⟨none, blob⟩ events).rejection now id request ≠ some .preconditionFailed)) ∧
      (∀ proposedLeaseID leaseDuration uuid granted, acquiredID proposedLeaseID uuid ≠ id →
        (handleAcquireLease (run delete ⟨none, blob⟩ events).lease now proposedLeaseID leaseDuration uuid granted).1 ≠
          .created) ∧ (∀ more later, Chronological now more later → (run delete ⟨none, blob⟩ events).InForce later id →
        (∀ e ∈ more, ¬ e.Carries id) →
        run delete (run delete ⟨none, blob⟩ events) more = run delete ⟨none, blob⟩ events)) ∧
    (∀ leaseID, ((setLeaseHeaders (run delete ⟨none, blob⟩ events).lease now leaseID).state = .leased ↔
          ∃ id, (run delete ⟨none, blob⟩ events).InForce now id) ∧
        ((setLeaseHeaders (run delete ⟨none, blob⟩ events).lease now leaseID).state = .expired ↔
          (run delete ⟨none, blob⟩ events).RunOut now) ↔ (run delete ⟨none, blob⟩ events).lease = none) := by
  have hid := @id_ne_run delete ⟨none, blob⟩ (fun old h => absurd h (Option.some_ne_none old).symm) events
  generalize run delete ⟨none, blob⟩ events = s at hid ⊢
  refine ⟨?_, ?_, fun leaseID => ?_⟩
  · rintro id id' ⟨lease, hlease, rfl, -⟩ ⟨lease', hlease', rfl, -⟩
    rw [Option.some.inj (hlease.symm.trans hlease')]
  · rintro id ⟨old, hold, rfl, hend⟩
    refine ⟨hid old hold, fun leaseID request hchecks => ⟨fun hne hnone => ?_, fun hrejected => ?_⟩,
      fun proposedLeaseID leaseDuration uuid granted hother => ?_, ?_⟩
    · rw [rejection, hchecks, if_pos rfl, hold] at hnone
      split_ifs at hnone
      exact hne ((checkLease_eq_none_iff hend leaseID).mp hnone)
    · rw [rejection, hchecks, if_pos rfl, hold, (checkLease_eq_none_iff hend old.id).mpr rfl] at hrejected
      split_ifs at hrejected
      cases hrejected
    · rw [hold]
      exact handleAcquireLease_other hend.le hother granted
    · rintro more later hclock ⟨lease, hlease, -, hlater⟩ hother
      cases hlease.symm.trans hold
      exact run_of_not_carries hold hclock hlater hother
  · cases hlease : s.lease with
    | none => simp [setLeaseHeaders, InForce, RunOut, hlease]
    | some old =>
      by_cases hend : now < old.endTime
      · simp [setLeaseHeaders, InForce, RunOut, hlease, hend, hend.not_ge]
      · simp [setLeaseHeaders, InForce, RunOut, hlease, hend, not_lt.mp hend]

/-- A lease of a minute, one second after it was acquired. -/
theorem lease_reported_expired : (run id ⟨none, newServer fun _ => none⟩
        [⟨0, .lease (.acquire ['a'] ['6', '0'] ⟨['u'], by decide⟩ 0)⟩]).InForce (10 ^ 9) ['a'] ∧
      (setLeaseHeaders (run id ⟨none, newServer fun _ => none⟩
        [⟨0, .lease (.acquire ['a'] ['6', '0'] ⟨['u'], by decide⟩ 0)⟩]).lease (10 ^ 9) ['a']).state = .expired :=
  ⟨⟨⟨['a'], 60 * 10 ^ 9⟩, by decide, rfl, by decide⟩, by decide⟩

end LeasedServer

end WalG.Blob
