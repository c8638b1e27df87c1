import WalG.Foundation.Bytes
import WalG.Foundation.Text
import WalG.Foundation.TiedCut

/-! # Fetching the binlogs for a recovery

A recovery starts at the earliest time at which the backup's sentinel or the binlog it started in
was stored.
-/
namespace WalG.MySQL
open Foundation List

inductive FetchError where
  | listFolder
  | fetchSentinel
  | download
  | timestamp
  | handler
  deriving DecidableEq, Repr

/-- An object of a folder; times are in nanoseconds. -/
structure StoredObject where
  name : Text
  lastModified : ℤ
  deriving DecidableEq

def StoredObject.binlogName (object : StoredObject) : Text := trimFileExtension object.name

theorem StoredObject.binlogName_prefix (object : StoredObject) : object.binlogName <+: object.name := by
  rw [StoredObject.binlogName, trimFileExtension, trimSuffix]
  split_ifs
  · exact take_prefix _ _
  · exact prefix_refl _

def second : ℤ := 1000000000

/-- The end of the year 9999. -/
def maxTime : ℤ := 253402300799 * second

def binlogMagic : Bytes := [0xfe, 0x62, 0x69, 0x6e]
def binlogEventHeaderSize : ℕ := 13

/-- The time of the first event of a binlog file. -/
def getBinlogStartTimestamp (file : Bytes) : Option ℤ :=
  if file.length < binlogMagic.length + binlogEventHeaderSize then none
  else if file.take binlogMagic.length = binlogMagic then
    some (leNat ((file.drop binlogMagic.length).take 4) * second)
  else none

/-- What a binlog's name leads to: the downloaded file, if there is one, and whether
the handler takes it. -/
structure Binlogs where
  download : Text → Option Bytes
  handles : Text → Bool

/-- The times of the objects whose names start with the given text lower a time. -/
def lowerTS (start : Text) : ℤ → List StoredObject → ℤ
  | startTS, [] => startTS
  | startTS, object :: objects =>
    if start.isPrefixOf object.name ∧ object.lastModified < startTS then
      lowerTS start object.lastModified objects
    else lowerTS start startTS objects

/-- The sentinel of a backup gives the name of the binlog it started in. -/
def getBinlogSinceTS (binLogStart : Option Text) (backupName : Text)
    (sentinels binlogs : Except FetchError (List StoredObject)) : Except FetchError ℤ :=
  match binLogStart with
  | none => .error .fetchSentinel
  | some binLogStart => do
    let sentinels ← sentinels
    let binlogs ← binlogs
    pure (lowerTS binLogStart (lowerTS backupName maxTime sentinels) binlogs)

def getLogsCoveringInterval (sort : SliceSort StoredObject) (logFiles : List StoredObject) (start : ℤ)
    (includeStart : Bool) : List StoredObject :=
  (sort.sort (fun a b => a.lastModified < b.lastModified) logFiles).filter fun logFile =>
    start < logFile.lastModified || includeStart && start = logFile.lastModified

structure FetchState where
  handled : List Text
  startTS : ℤ

/-- How a pass over a list of binlogs ends. -/
inductive Progress where
  | failed (e : FetchError)
  | brokeOuter
  | ran

section Fetch

variable (binlogs : Binlogs) (endTS : ℤ)

/-- One pass over the listed binlogs. -/
def fetchEach : FetchState → List StoredObject → FetchState × Progress
  | s, [] => (s, .ran)
  | s, logFile :: logsToFetch =>
    let startTS := logFile.lastModified
    match binlogs.download logFile.binlogName with
    | none => (⟨s.handled, startTS⟩, .failed .download)
    | some file =>
      match getBinlogStartTimestamp file with
      | none => (⟨s.handled, startTS⟩, .failed .timestamp)
      | some timestamp =>
        let s := ⟨s.handled ++ [logFile.binlogName], startTS⟩
        if !binlogs.handles logFile.binlogName then (s, .failed .handler)
        else if endTS < timestamp then (s, .brokeOuter)
        else fetchEach s logsToFetch

variable (sort : SliceSort StoredObject) (listFolder : Except FetchError (List StoredObject))

/-- The outer loop: list, fetch, and list again what is newer. -/
def fetchRounds : ℕ → Bool → FetchState → Option (List Text × Option FetchError)
  | 0, _, _ => none
  | fuel + 1, includeStart, s =>
    match listFolder with
    | .error e => some (s.handled, some e)
    | .ok logFiles =>
      match getLogsCoveringInterval sort logFiles s.startTS includeStart with
      | [] => some (s.handled, none)
      | logFile :: logsToFetch =>
        match fetchEach binlogs endTS s (logFile :: logsToFetch) with
        | (s, .failed e) => some (s.handled, some e)
        | (s, .brokeOuter) => some (s.handled, none)
        | (s, .ran) => fetchRounds fuel false s

/-- The names handed to the handler and the error, if any. -/
def fetchLogs (fuel : ℕ) (startTS : ℤ) : Option (List Text × Option FetchError) :=
  fetchRounds binlogs endTS sort listFolder fuel true ⟨[], startTS⟩

end Fetch

/-- The first event of the binlog is after the end time. -/
def Binlogs.after (binlogs : Binlogs) (endTS : ℤ) (logFile : StoredObject) : Bool :=
  match (binlogs.download logFile.binlogName).bind getBinlogStartTimestamp with
  | none => false
  | some timestamp => endTS < timestamp

/-- The binlog can be downloaded and read, and the handler takes it. -/
def Binlogs.Usable (binlogs : Binlogs) (logFile : StoredObject) : Prop :=
  ((binlogs.download logFile.binlogName).bind getBinlogStartTimestamp).isSome ∧
    binlogs.handles logFile.binlogName = true

section Pass

variable {binlogs : Binlogs} {endTS : ℤ}

theorem fetchEach_cons {logFile : StoredObject} (husable : binlogs.Usable logFile) (s : FetchState)
    (logs : List StoredObject) :
    fetchEach binlogs endTS s (logFile :: logs) =
      if binlogs.after endTS logFile then
        (⟨s.handled ++ [logFile.binlogName], logFile.lastModified⟩, .brokeOuter)
      else fetchEach binlogs endTS ⟨s.handled ++ [logFile.binlogName], logFile.lastModified⟩ logs := by
  obtain ⟨hread, hhandles⟩ := husable
  rw [fetchEach, Binlogs.after]
  cases hfile : binlogs.download logFile.binlogName with
  | none =>
    rw [hfile] at hread
    cases hread
  | some file =>
    rw [hfile, Option.bind_some] at hread
    rw [Option.bind_some]
    cases htime : getBinlogStartTimestamp file with
    | none =>
      rw [htime] at hread
      cases hread
    | some timestamp => simp [hhandles, htime]

theorem fetchEach_cons_failed {logFile : StoredObject} (h : ¬ binlogs.Usable logFile) (s : FetchState)
    (logs : List StoredObject) : ∃ s' e, fetchEach binlogs endTS s (logFile :: logs) = (s', .failed e) := by
  rw [fetchEach]
  cases hfile : binlogs.download logFile.binlogName with
  | none => exact ⟨_, _, rfl⟩
  | some file =>
    dsimp only
    cases htime : getBinlogStartTimestamp file with
    | none => exact ⟨_, _, rfl⟩
    | some timestamp =>
      have hhandles : binlogs.handles logFile.binlogName = false := by
        by_contra hhandles
        exact h ⟨by rw [hfile, Option.bind_some, htime]; rfl, Bool.not_eq_false _ ▸ hhandles⟩
      rw [hhandles]
      exact ⟨_, _, rfl⟩

/-- A pass over usable binlogs hands over those up to the first one after the end. -/
theorem fetchEach_usable {logs : List StoredObject}
    (husable : ∀ b ∈ takeThrough (binlogs.after endTS) logs, binlogs.Usable b) (s : FetchState) :
    ∃ startTS progress, fetchEach binlogs endTS s logs =
        (⟨s.handled ++ (takeThrough (binlogs.after endTS) logs).map StoredObject.binlogName, startTS⟩, progress) ∧
      (progress = .brokeOuter ∨ progress = .ran ∧
        startTS = (logs.getLast?.map StoredObject.lastModified).getD s.startTS) := by
  induction logs generalizing s with
  | nil =>
    refine ⟨s.startTS, .ran, ?_, .inr ⟨rfl, rfl⟩⟩
    rw [takeThrough, map_nil, append_nil]
    rfl
  | cons logFile logs ih =>
    have hhead := husable logFile (mem_of_mem_head? (head_takeThrough logFile logs))
    rw [fetchEach_cons hhead]
    cases hafter : binlogs.after endTS logFile with
    | true =>
      refine ⟨logFile.lastModified, .brokeOuter, ?_, .inl rfl⟩
      rw [takeThrough, hafter]
      rfl
    | false =>
      have htail : takeThrough (binlogs.after endTS) (logFile :: logs) =
          logFile :: takeThrough (binlogs.after endTS) logs := by
        rw [takeThrough, hafter, if_neg Bool.false_ne_true]
      rw [htail] at husable ⊢
      obtain ⟨startTS, progress, heq, hprogress⟩ :=
        ih (fun b hb => husable b (mem_cons_of_mem _ hb))
          ⟨s.handled ++ [logFile.binlogName], logFile.lastModified⟩
      refine ⟨startTS, progress, ?_, ?_⟩
      · rw [if_neg Bool.false_ne_true, heq, map_cons, append_assoc, singleton_append]
      · rw [getLast?_cons]
        cases hlast : logs.getLast? with
        | none => rwa [hlast] at hprogress
        | some last => rwa [hlast] at hprogress

theorem fetchEach_failed {logs : List StoredObject}
    (h : ¬ ∀ b ∈ takeThrough (binlogs.after endTS) logs, binlogs.Usable b) (s : FetchState) :
    ∃ s' e, fetchEach binlogs endTS s logs = (s', .failed e) := by
  induction logs generalizing s with
  | nil => exact absurd nofun h
  | cons logFile logs ih =>
    by_cases hhead : binlogs.Usable logFile
    · rw [takeThrough] at h
      rw [fetchEach_cons hhead]
      split_ifs at h ⊢ with hafter
      · exact absurd (fun b hb => mem_singleton.mp hb ▸ hhead) h
      · refine ih (fun htail => h fun b hb => ?_) _
        rcases mem_cons.mp hb with rfl | hb
        · exact hhead
        · exact htail b hb
    · exact fetchEach_cons_failed hhead s logs

end Pass

section Rounds

variable {binlogs : Binlogs} {endTS : ℤ} {sort : SliceSort StoredObject} {logFiles : List StoredObject}

theorem sortedBy_sort (sort : SliceSort StoredObject) (logFiles : List StoredObject) :
    SortedBy StoredObject.lastModified
      (sort.sort (fun a b => a.lastModified < b.lastModified) logFiles) :=
  sort.sorted_key fun _ _ _ _ => rfl

theorem getLogsCoveringInterval_true (startTS : ℤ) :
    getLogsCoveringInterval sort logFiles startTS true =
      (sort.sort (fun a b => a.lastModified < b.lastModified) logFiles).filter
        (startTS ≤ ·.lastModified) := by
  rw [getLogsCoveringInterval]
  congr 1
  funext logFile
  rw [Bool.true_and, ← Bool.decide_or, decide_eq_decide]
  exact le_iff_lt_or_eq.symm

theorem getLogsCoveringInterval_last {startTS : ℤ} {last : StoredObject}
    (hlast : (getLogsCoveringInterval sort logFiles startTS true).getLast? = some last) :
    getLogsCoveringInterval sort logFiles last.lastModified false = [] := by
  rw [getLogsCoveringInterval_true] at hlast
  have hle := le_getLast_of_sortedBy ((sortedBy_sort sort logFiles).filter _) hlast
  have hstart := (mem_filter.mp (mem_of_getLast? hlast)).2
  rw [decide_eq_true_eq] at hstart
  rw [getLogsCoveringInterval, filter_eq_nil_iff]
  intro logFile hmem
  simp only [Bool.false_and, Bool.or_false, decide_eq_true_eq, not_lt]
  by_cases hnew : startTS ≤ logFile.lastModified
  · exact hle logFile (mem_filter.mpr ⟨hmem, decide_eq_true hnew⟩)
  · exact (not_le.mp hnew).le.trans hstart

/-- The first listing decides: the fetch succeeds if all binlogs up to the cut can be used. -/
theorem fetchLogs_eq_iff (fuel : ℕ) (startTS : ℤ) (names : List Text) :
    fetchLogs binlogs endTS sort (.ok logFiles) (fuel + 2) startTS = some (names, none) ↔
      (∀ b ∈ takeThrough (binlogs.after endTS) (getLogsCoveringInterval sort logFiles startTS true),
        binlogs.Usable b) ∧
      (takeThrough (binlogs.after endTS) (getLogsCoveringInterval sort logFiles startTS true)).map
        StoredObject.binlogName = names := by
  rw [fetchLogs, fetchRounds]
  cases hlogs : getLogsCoveringInterval sort logFiles startTS true with
  | nil =>
    simp only [takeThrough, map_nil, not_mem_nil, false_implies, implies_true, true_and,
      Option.some.injEq, Prod.mk.injEq, and_true]
  | cons logFile logs =>
    dsimp only
    by_cases husable : ∀ b ∈ takeThrough (binlogs.after endTS) (logFile :: logs), binlogs.Usable b
    · obtain ⟨lastTS, progress, heq, hprogress⟩ := fetchEach_usable husable ⟨[], startTS⟩
      rw [and_iff_right husable, heq]
      rcases hprogress with rfl | ⟨rfl, rfl⟩
      · simp only [nil_append, Option.some.injEq, Prod.mk.injEq, and_true]
      · cases hlast : (logFile :: logs).getLast? with
        | none => simp at hlast
        | some last =>
          have hnone := getLogsCoveringInterval_last (hlogs ▸ hlast)
          dsimp only
          rw [fetchRounds]
          simp only [Option.map_some, Option.getD_some, hnone, nil_append, Option.some.injEq, Prod.mk.injEq, and_true]
    · obtain ⟨s', e, heq⟩ := fetchEach_failed husable ⟨[], startTS⟩
      rw [heq]
      simp only [Option.some.injEq, Prod.mk.injEq, reduceCtorEq, and_false, husable, false_and]

end Rounds

end WalG.MySQL
