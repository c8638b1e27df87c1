import WalG.Foundation.Decimal
import WalG.Foundation.SliceSort

/-! # Archiving the finished binlogs of a server

A push asks the server for its binlogs, keeps the names before the current one, sorts them and
uploads those after the last one it archived.
-/
namespace WalG.MySQL
open Foundation List

/-- A server numbers its binlogs with at least six digits. -/
def binlogName (base : Text) (number : ℕ) : Text := base ++ '.' :: formatDecimal 6 number

/-- The answers of the server to one push. -/
structure Server where
  binaryLogs : List Text
  currentBinlog : Text

/-- What a push can meet on the way: a binlog that cannot be opened or uploaded
ends it, a cache that cannot be written does not. -/
structure Outcomes where
  uploads : Text → Bool
  writesCache : Text → Bool

/-- The cached name, if the cache can be read, and the uploads so far. -/
structure PushState where
  lastArchivedBinlog : Option Text
  uploaded : List Text
  deriving DecidableEq

def PushState.initial : PushState := ⟨none, []⟩

def getMySQLSortedBinlogs (sort : SliceSort Text) (server : Server) (untilBinlog : Text) : List Text :=
  let untilBinlog := if untilBinlog = [] then server.currentBinlog else untilBinlog
  sort.sort (fun a b => a < b) (server.binaryLogs.filter (· < untilBinlog))

namespace PushState

variable (outcomes : Outcomes) (s : PushState)

def getLastArchivedBinlog : Text := s.lastArchivedBinlog.getD []

def setLastArchivedBinlog (binLog : Text) : PushState :=
  if outcomes.writesCache binLog then { s with lastArchivedBinlog := some binLog } else s

/-- Nothing is returned on an error. -/
def tryArchiveBinLog (binLog : Text) : Option PushState :=
  if binLog ≤ s.getLastArchivedBinlog then some s
  else if outcomes.uploads binLog then
    some ({ s with uploaded := s.uploaded ++ [binLog] }.setLastArchivedBinlog outcomes binLog)
  else none

/-- The loop over the sorted names; an error is fatal. -/
def archiveBinlogs : PushState → List Text → PushState
  | s, [] => s
  | s, binLog :: binlogs =>
    match s.tryArchiveBinLog outcomes binLog with
    | none => s
    | some s' => archiveBinlogs s' binlogs

def handleBinlogPush (sort : SliceSort Text) (server : Server) (untilBinlog : Text) : PushState :=
  s.archiveBinlogs outcomes (getMySQLSortedBinlogs sort server untilBinlog)

end PushState

/-- Every upload and every cache write succeeds. -/
structure Outcomes.Succeed (outcomes : Outcomes) : Prop where
  uploads : ∀ binLog, outcomes.uploads binLog = true
  writesCache : ∀ binLog, outcomes.writesCache binLog = true

section Loop

variable {outcomes : Outcomes} (hsucceed : outcomes.Succeed)

include hsucceed

theorem tryArchiveBinLog_of_lt {s : PushState} {binLog : Text} (h : s.getLastArchivedBinlog < binLog) :
    s.tryArchiveBinLog outcomes binLog = some ⟨some binLog, s.uploaded ++ [binLog]⟩ := by
  rw [PushState.tryArchiveBinLog, if_neg h.not_ge, if_pos (hsucceed.uploads binLog),
    PushState.setLastArchivedBinlog, if_pos (hsucceed.writesCache binLog)]

theorem archiveBinlogs_of_lt {s : PushState} {binlogs : List Text}
    (hsorted : (s.getLastArchivedBinlog :: binlogs).Pairwise (· < ·)) :
    s.archiveBinlogs outcomes binlogs =
      ⟨binlogs.getLast?.or s.lastArchivedBinlog, s.uploaded ++ binlogs⟩ := by
  induction binlogs generalizing s with
  | nil =>
    rw [PushState.archiveBinlogs, append_nil]
    rfl
  | cons binLog binlogs ih =>
    have htail := (pairwise_cons.mp hsorted).2
    have hlt := (pairwise_cons.mp hsorted).1 binLog mem_cons_self
    rw [PushState.archiveBinlogs, tryArchiveBinLog_of_lt hsucceed hlt]
    dsimp only
    rw [ih (s := ⟨some binLog, _⟩) htail, append_assoc, singleton_append, getLast?_cons]
    cases binlogs.getLast? <;> rfl

theorem archiveBinlogs_eq {s : PushState} {binlogs : List Text} (hsorted : binlogs.Pairwise (· < ·)) :
    s.archiveBinlogs outcomes binlogs =
      ⟨(binlogs.filter (s.getLastArchivedBinlog < ·)).getLast?.or s.lastArchivedBinlog,
        s.uploaded ++ binlogs.filter (s.getLastArchivedBinlog < ·)⟩ := by
  induction binlogs with
  | nil =>
    rw [PushState.archiveBinlogs, filter_nil, append_nil]
    rfl
  | cons binLog binlogs ih =>
    have hhead := (pairwise_cons.mp hsorted).1
    by_cases hlt : s.getLastArchivedBinlog < binLog
    · have hall : ∀ b ∈ binLog :: binlogs, s.getLastArchivedBinlog < b := by
        intro b hb
        rcases mem_cons.mp hb with rfl | hb
        · exact hlt
        · exact hlt.trans (hhead b hb)
      rw [filter_eq_self.mpr fun b hb => decide_eq_true (hall b hb)]
      exact archiveBinlogs_of_lt hsucceed (pairwise_cons.mpr ⟨hall, hsorted⟩)
    · rw [PushState.archiveBinlogs, PushState.tryArchiveBinLog, if_pos (not_lt.mp hlt),
        filter_cons_of_neg (by simpa using hlt)]
      exact ih hsorted.of_cons

end Loop

end WalG.MySQL
