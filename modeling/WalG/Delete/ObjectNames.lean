import WalG.Wal.SegmentName

/-! # Names of stored objects

Backups are named after the segment they start in and, for an increment, the segment its base starts
in.
-/
namespace WalG.Delete
open Foundation Wal List

def baseBackupPath : Text := "basebackups_005/".toList
def walPath : Text := "wal_005/".toList
def backupNamePrefix : Text := "base_".toList
def sentinelSuffix : Text := "_backup_stop_sentinel.json".toList
def deltaMark : Text := "_D_".toList
def backupMark : Text := "_backup".toList

/-- A match of the backup name pattern at the start of a text. -/
def matchPgBackupName (s : Text) : Option Text :=
  if backupNamePrefix.isPrefixOf s ∧ startsWithSegment (s.drop 5) then
    if deltaMark.isPrefixOf (s.drop 29) ∧ startsWithSegment (s.drop 32) then some (s.take 56)
    else some (s.take 29)
  else none

/-- The leftmost backup name in an object's name, or nothing. -/
def fetchPgBackupName : Text → Text
  | [] => []
  | c :: s =>
    match matchPgBackupName (c :: s) with
    | some name => name
    | none => fetchPgBackupName s

/-- The text before the first occurrence of a mark. -/
def beforeMark (mark : Text) : Text → Text
  | [] => []
  | c :: s => if mark.isPrefixOf (c :: s) then [] else c :: beforeMark mark s

def trimSlashes (path : Text) : Text := (path.dropWhile (· = '/')).rdropWhile (· = '/')

def stripBackupSuffix (pathValue : Text) : Text := beforeMark backupMark pathValue

def stripRightmostBackupName (path : Text) : Text :=
  stripBackupSuffix ((trimSlashes path).rtakeWhile (· ≠ '/'))

def stripLeftmostBackupName (path : Text) : Text :=
  stripBackupSuffix ((trimSlashes path).takeWhile (· ≠ '/'))

/-- What a delete command can fail with; slicing a text behind its end or calling
a method of an absent target panics. -/
inductive DeleteError where
  | sliceOutOfRange
  | nilTarget
  | notFound
  | forbiddenAction
  | readError
  deriving DecidableEq, Repr

def isPermanent (permanentBackups permanentWals : Text → Bool) (objectName : Text) :
    Except DeleteError Bool :=
  if objectName.length < walPath.length then .error .sliceOutOfRange
  else if objectName.take walPath.length = walPath then
    if objectName.length < walPath.length + 24 then .error .sliceOutOfRange
    else .ok (permanentWals ((objectName.drop walPath.length).take 24))
  else if objectName.length < baseBackupPath.length then .error .sliceOutOfRange
  else if objectName.take baseBackupPath.length = baseBackupPath then
    .ok (permanentBackups (stripLeftmostBackupName (objectName.drop baseBackupPath.length)))
  else .ok false

def parseTimelineFromBackupName (backupName : Text) : Except DeleteError (Option ℕ) :=
  if backupName = [] then .ok none
  else if backupName.length < backupNamePrefix.length + 8 then .error .sliceOutOfRange
  else .ok (parseHex 32 ((backupName.drop backupNamePrefix.length).take 8))

/-- The segment a backup starts in and the one its base starts in. -/
structure PgBackupName (w : WalSize) where
  start : WalSegment w
  base : Option (WalSegment w)
  deriving DecidableEq

namespace PgBackupName

variable {w : WalSize} (n : PgBackupName w)

def text : Text :=
  backupNamePrefix ++ (n.start.filename ++ match n.base with
    | none => []
    | some base => deltaMark ++ base.filename)

def sentinel : Text := n.text ++ sentinelSuffix

/-- The names of the objects of a backup start with its name and go on with the
sentinel's suffix or a slash. -/
def Ends (rest : Text) : Prop := rest = sentinelSuffix ∨ ∃ path, rest = '/' :: path

theorem tryFetch_text (rest : Text) :
    tryFetchTimelineAndLogSegNo w (n.text ++ rest) = some (n.start.timeline, n.start.no) := by
  have hsplit : backupNamePrefix = "base".toList ++ ['_'] := rfl
  rw [text, hsplit, append_assoc, append_assoc, append_assoc, singleton_append]
  exact n.start.tryFetch_append rfl (by decide +kernel) _

theorem tryFetch_stored (rest : Text) :
    tryFetchTimelineAndLogSegNo w (baseBackupPath ++ (n.text ++ rest)) =
      some (n.start.timeline, n.start.no) := by
  have hsplit : baseBackupPath = "basebackups_005".toList ++ ['/'] := by decide +kernel
  rw [← n.tryFetch_text rest, hsplit, append_assoc, singleton_append,
    tryFetchTimelineAndLogSegNo, tryFetchTimelineAndLogSegNo,
    WalSegment.findTimelineAndLogSegNo_append rfl (by decide +kernel)]

theorem text_length : n.text.length = 29 ∨ n.text.length = 56 := by
  have hfive : backupNamePrefix.length = 5 := rfl
  have hmark : deltaMark.length = 3 := rfl
  rw [text, length_append, length_append, WalSegment.filename_length, hfive]
  cases n.base with
  | none => exact .inl rfl
  | some base =>
    right
    simp only [length_append, WalSegment.filename_length, hmark]

theorem not_deltaMark {rest : Text} (h : Ends rest) : deltaMark.isPrefixOf rest = false := by
  rcases h with rfl | ⟨path, rfl⟩ <;> rfl

theorem matchPgBackupName_text {rest : Text} (h : Ends rest) : matchPgBackupName (n.text ++ rest) = some n.text := by
  have hfive : backupNamePrefix.length = 5 := rfl
  have hmark : deltaMark.length = 3 := rfl
  have hstart : ∀ t, backupNamePrefix.isPrefixOf (backupNamePrefix ++ t) = true := fun t => by
    rw [List.isPrefixOf_iff_prefix]
    exact prefix_append _ _
  have hdrop : ∀ t, (backupNamePrefix ++ t).drop 5 = t := fun t => drop_left' hfive
  have hdrop' : ∀ t, (backupNamePrefix ++ (n.start.filename ++ t)).drop 29 = t := fun t => by
    rw [← append_assoc]
    exact drop_left' (by rw [length_append, hfive, WalSegment.filename_length])
  cases hb : n.base with
  | none =>
    have htext : n.text = backupNamePrefix ++ n.start.filename := by
      rw [text, hb, append_nil]
    have hlen : n.text.length = 29 := by
      rw [htext, length_append, hfive, WalSegment.filename_length]
    have htake : (n.text ++ rest).take 29 = n.text := take_left' hlen
    have hno : ¬ (deltaMark.isPrefixOf ((n.text ++ rest).drop 29) = true ∧
        startsWithSegment ((n.text ++ rest).drop 32) = true) := by
      rw [drop_left' hlen, not_deltaMark h]
      simp
    rw [matchPgBackupName, if_neg hno, htake, if_pos]
    rw [htext, append_assoc, hdrop]
    exact ⟨hstart _, n.start.startsWithSegment_filename rest⟩
  | some base =>
    have htext : n.text = backupNamePrefix ++ (n.start.filename ++ (deltaMark ++ base.filename)) := by
      rw [text, hb]
    have hlen : n.text.length = 56 := by
      rw [htext, length_append, length_append, length_append, hfive, hmark,
        WalSegment.filename_length, WalSegment.filename_length]
    have hrest : (n.text ++ rest).drop 29 = deltaMark ++ (base.filename ++ rest) := by
      rw [htext, append_assoc, append_assoc, append_assoc, hdrop']
    have hyes : deltaMark.isPrefixOf ((n.text ++ rest).drop 29) = true ∧
        startsWithSegment ((n.text ++ rest).drop 32) = true := by
      rw [show (n.text ++ rest).drop 32 = ((n.text ++ rest).drop 29).drop 3 by rw [drop_drop],
        hrest, isPrefixOf_iff_prefix, drop_left' hmark]
      exact ⟨prefix_append _ _, base.startsWithSegment_filename rest⟩
    rw [matchPgBackupName, if_pos hyes, take_left' hlen, if_pos]
    rw [htext, append_assoc, append_assoc, hdrop]
    exact ⟨hstart _, n.start.startsWithSegment_filename _⟩

theorem fetchPgBackupName_text {rest : Text} (h : Ends rest) : fetchPgBackupName (n.text ++ rest) = n.text := by
  have hmatch := n.matchPgBackupName_text h
  obtain ⟨c, t, hct⟩ := exists_cons_of_ne_nil
    (ne_nil_of_length_pos (by rcases n.text_length with h | h <;> omega) : n.text ≠ [])
  rw [hct, cons_append] at hmatch ⊢
  rw [fetchPgBackupName, hmatch]

theorem tryFetch_sentinel : tryFetchTimelineAndLogSegNo w n.sentinel = some (n.start.timeline, n.start.no) := by
  rw [sentinel, tryFetch_text]

theorem fetchPgBackupName_sentinel : fetchPgBackupName n.sentinel = n.text := by
  rw [sentinel, n.fetchPgBackupName_text (.inl rfl)]

theorem fetchPgBackupName_stored {rest : Text} (h : Ends rest) :
    fetchPgBackupName (baseBackupPath ++ (n.text ++ rest)) = n.text := by
  have hfolder : ∀ t, fetchPgBackupName (baseBackupPath ++ t) = fetchPgBackupName t := fun _ => rfl
  rw [hfolder, n.fetchPgBackupName_text h]

end PgBackupName

theorem findTimelineAndLogSegNo_walPath (t : Text) :
    findTimelineAndLogSegNo (walPath ++ t) = findTimelineAndLogSegNo t := by
  have hsplit : walPath = "wal_005".toList ++ ['/'] := by decide +kernel
  rw [hsplit, append_assoc, singleton_append, WalSegment.findTimelineAndLogSegNo_append rfl (by decide +kernel)]

theorem tryFetch_wal {w : WalSize} (s : WalSegment w) (rest : Text) :
    tryFetchTimelineAndLogSegNo w (walPath ++ (s.filename ++ rest)) = some (s.timeline, s.no) := by
  rw [tryFetchTimelineAndLogSegNo, findTimelineAndLogSegNo_walPath,
    WalSegment.findTimelineAndLogSegNo_filename, Option.bind_some, WalSegment.parseWALFilename_filename]

theorem notMem_filename {w : WalSize} (s : WalSegment w) {c : Char} (hc : isUpperHex c = false) : c ∉ s.filename := by
  intro hmem
  cases (s.isUpperHex_of_mem_filename hmem).symm.trans hc

theorem matchPgBackupName_of_notMem {s : Text} (h : '_' ∉ s) : matchPgBackupName s = none := by
  rw [matchPgBackupName, if_neg]
  rintro ⟨hstart, -⟩
  rw [List.isPrefixOf_iff_prefix] at hstart
  exact h (hstart.subset (by decide))

theorem fetchPgBackupName_of_notMem {s : Text} (h : '_' ∉ s) : fetchPgBackupName s = [] := by
  induction s with
  | nil => rfl
  | cons c s ih =>
    rw [fetchPgBackupName, matchPgBackupName_of_notMem h]
    exact ih fun hs => h (mem_cons_of_mem c hs)

theorem fetchPgBackupName_wal {w : WalSize} (s : WalSegment w) {extension : Text}
    (h : '_' ∉ extension) : fetchPgBackupName (walPath ++ (s.filename ++ extension)) = [] := by
  have hfolder : ∀ t, fetchPgBackupName (walPath ++ t) = fetchPgBackupName t := fun _ => rfl
  rw [hfolder, fetchPgBackupName_of_notMem]
  intro hmem
  rcases mem_append.mp hmem with hmem | hmem
  · exact notMem_filename s (by decide) hmem
  · exact h hmem

end WalG.Delete
