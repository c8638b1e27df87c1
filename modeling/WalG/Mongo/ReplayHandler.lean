import WalG.Foundation.Interleaving
import WalG.Mongo.Fetcher

/-! # The goroutines of an oplog replay

The fetcher sends its operations to the applier over one channel, and each of the two reports errors
over a channel of its own that is read once.
-/
namespace WalG.Mongo
open Foundation List

inductive ReplayError
  | fetch (e : FetchError)
  | apply
  deriving DecidableEq

inductive FetcherPhase
  | sending
  | dataClosed
  | closed
  deriving DecidableEq

/-- The applier waits for an operation, applies the `k`-th one, reports that it failed, or
has returned. -/
inductive ApplierPhase
  | ranging
  | applying (k : ℕ)
  | failing
  | closed
  deriving DecidableEq

/-- A read of an error channel gives no error when the channel is closed. -/
inductive ReaderPhase
  | waiting
  | received (err : Option ReplayError)
  | finished
  deriving DecidableEq

/-- `actions` are what the fetcher has still to send, `given` counts the operations the
applier took, and `sent` tells that an error went over a channel. -/
structure ReplayState where
  actions : List FetchAction
  fetcher : FetcherPhase := .sending
  given : ℕ := 0
  applier : ApplierPhase := .ranging
  fetchReader : ReaderPhase := .waiting
  applyReader : ReaderPhase := .waiting
  cancelled : Bool := false
  err : Option ReplayError := none
  sent : Bool := false

/-- The group keeps its first error and cancels the context with it. -/
def ReplayState.report (s : ReplayState) (err : Option ReplayError) : ReplayState :=
  { s with err := s.err.or err, cancelled := s.cancelled || err.isSome }

/-- The steps of the goroutines, with an applier that fails on some of the operations. -/
inductive ReplayStep (fails : ℕ → Bool) (s : ReplayState) : ReplayState → Prop
  | send {op rest} (hf : s.fetcher = .sending) (hactions : s.actions = .data op :: rest) (ha : s.applier = .ranging) :
    ReplayStep fails s { s with actions := rest, applier := .applying s.given, given := s.given + 1 }
  | cancel {op rest} (hf : s.fetcher = .sending) (hactions : s.actions = .data op :: rest) (hc : s.cancelled = true) :
    ReplayStep fails s { s with actions := [] }
  | sendErr {e rest} (hf : s.fetcher = .sending) (hactions : s.actions = .err e :: rest)
    (hr : s.fetchReader = .waiting) :
    ReplayStep fails s { s with actions := rest, fetchReader := .received (some (.fetch e)), sent := true }
  | closeData (hf : s.fetcher = .sending) (hactions : s.actions = []) :
    ReplayStep fails s { s with fetcher := .dataClosed }
  | closeErrc (hf : s.fetcher = .dataClosed) : ReplayStep fails s { s with fetcher := .closed }
  | applied {k} (ha : s.applier = .applying k) (hk : fails k = false) :
    ReplayStep fails s { s with applier := .ranging }
  | applyFailed {k} (ha : s.applier = .applying k) (hk : fails k = true) :
    ReplayStep fails s { s with applier := .failing }
  | sendApplyErr (ha : s.applier = .failing) (hr : s.applyReader = .waiting) :
    ReplayStep fails s { s with applier := .closed, applyReader := .received (some .apply), sent := true }
  | rangeDone (ha : s.applier = .ranging) (hf : s.fetcher ≠ .sending) : ReplayStep fails s { s with applier := .closed }
  | readFetchClosed (hr : s.fetchReader = .waiting) (hf : s.fetcher = .closed) :
    ReplayStep fails s { s with fetchReader := .received none }
  | readApplyClosed (hr : s.applyReader = .waiting) (ha : s.applier = .closed) :
    ReplayStep fails s { s with applyReader := .received none }
  | fetchReturned {err} (hr : s.fetchReader = .received err) :
    ReplayStep fails s ({ s with fetchReader := .finished }.report err)
  | applyReturned {err} (hr : s.applyReader = .received err) :
    ReplayStep fails s ({ s with applyReader := .finished }.report err)

def ReplayState.Returned (s : ReplayState) : Prop := s.fetchReader = .finished ∧ s.applyReader = .finished

def Reaches (actions : List FetchAction) (fails : ℕ → Bool) : ReplayState → Prop :=
  Relation.ReflTransGen (ReplayStep fails) { actions := actions }

/-- The replay returns, however its goroutines run, and with an error if one was sent. -/
def ReplayCompletes (actions : List FetchAction) (fails : ℕ → Bool) : Prop :=
  Completes (ReplayStep fails) { actions := actions } ReplayState.Returned fun s => s.sent = true → s.err ≠ none

section Measure

def FetcherPhase.steps : FetcherPhase → ℕ
  | sending => 2
  | dataClosed => 1
  | closed => 0

def ApplierPhase.steps : ApplierPhase → ℕ
  | ranging => 1
  | applying _ => 3
  | failing => 2
  | closed => 0

def ReaderPhase.steps : ReaderPhase → ℕ
  | waiting => 2
  | received _ => 1
  | finished => 0

/-- An operation that is sent makes the applier take two more steps at most. -/
def ReplayState.steps (s : ReplayState) : ℕ :=
  3 * s.actions.length + s.fetcher.steps + s.applier.steps + s.fetchReader.steps + s.applyReader.steps

theorem ReplayStep.steps_lt {fails : ℕ → Bool} {s s' : ReplayState} (h : ReplayStep fails s s') :
    s'.steps < s.steps := by
  -- each step lowers the count of the goroutine that takes it
  cases h <;>
    simp only [ReplayState.steps, ReplayState.report, FetcherPhase.steps, ApplierPhase.steps, ReaderPhase.steps,
      length_cons, length_nil, *] <;>
    omega

end Measure

end WalG.Mongo
