import WalG.Verify.BackupCheck

/-! # The earliest backup of a history

The walk stops at the start of the earliest backup that passes the check.
-/
namespace WalG.Verify
open Foundation List

inductive FindError where
  | notWalFilename
  | noCorrectBackupFound
  deriving DecidableEq, Repr

def startSegment (w : Wal.WalSize) (backup : BackupDetail) : Option WalSegmentDescription :=
  (Wal.parseWALFilename w backup.walFileName).map fun parsed => ⟨.ofNat parsed.2, .ofNat parsed.1⟩

/-- The backup found so far, against one more. -/
def earlier (earliest : Option (BackupDetail × UInt64)) (backup : BackupDetail) (number : UInt64) :
    BackupDetail × UInt64 :=
  match earliest with
  | none => (backup, number)
  | some found => if number < found.2 then (backup, number) else found

def findEarliestFrom (w : Wal.WalSize) (currentTimeline : UInt32) (switchSegNo : Table UInt32 UInt64) :
    Option (BackupDetail × UInt64) → List BackupDetail → Except FindError (Option (BackupDetail × UInt64))
  | earliest, [] => .ok earliest
  | earliest, backup :: backups =>
    match startSegment w backup with
    | none => .error .notWalFilename
    | some segment =>
      if checkBackupIsCorrect currentTimeline backup segment switchSegNo then
        findEarliestFrom w currentTimeline switchSegNo (some (earlier earliest backup segment.number)) backups
      else findEarliestFrom w currentTimeline switchSegNo earliest backups

def findEarliestBackup (w : Wal.WalSize) (currentTimeline : UInt32) (backupDetails : List BackupDetail)
    (switchSegNo : Table UInt32 UInt64) : Except FindError (BackupDetail × UInt64) :=
  match findEarliestFrom w currentTimeline switchSegNo none backupDetails with
  | .error err => .error err
  | .ok none => .error .noCorrectBackupFound
  | .ok (some found) => .ok found

/-- A backup at which the check may stop. -/
def History.Eligible (history : History) (w : Wal.WalSize) (backup : BackupDetail) (segment : WalSegmentDescription) :
    Prop :=
  startSegment w backup = some segment ∧ backup.isPermanent = false ∧ history.Covers w segment

/-- The earliest eligible backup is found, and an error means that there is none. -/
def History.FindsEarliest (history : History) (w : Wal.WalSize) (backups : List BackupDetail)
    (result : Except FindError (BackupDetail × UInt64)) : Prop :=
  (∀ backup number, result = .ok (backup, number) → backup ∈ backups ∧
    (∃ timeline, history.Eligible w backup ⟨number, timeline⟩) ∧
      ∀ other ∈ backups, ∀ segment, history.Eligible w other segment → number ≤ segment.number) ∧
  ((∃ err, result = .error err) ↔ ∀ backup ∈ backups, ∀ segment, ¬ history.Eligible w backup segment)

/-- An eligible backup that the check accepts. -/
def History.Recognised (history : History) (w : Wal.WalSize) (backup : BackupDetail) (segment : WalSegmentDescription) :
    Prop :=
  history.Eligible w backup segment ∧ ¬ history.Lost w segment

/-- The mistakes of the check do not show: a backup that it accepts wrongly is listed after a recognised one that
started no later, or before one that started earlier, and one that it refuses wrongly did not start before
every recognised one. -/
def History.Undisturbed (history : History) (w : Wal.WalSize) (backups : List BackupDetail) : Prop :=
  (∀ before backup after segment, backups = before ++ backup :: after → startSegment w backup = some segment →
    backup.isPermanent = false → history.Overlooked w segment →
      (∃ other ∈ before, ∃ s, history.Recognised w other s ∧ s.number ≤ segment.number) ∨
        ∃ other ∈ after, ∃ s, history.Recognised w other s ∧ s.number < segment.number) ∧
  ∀ backup ∈ backups, ∀ segment, history.Eligible w backup segment → history.Lost w segment →
    ∃ other ∈ backups, ∃ s, history.Recognised w other s ∧ s.number ≤ segment.number

section Loop

variable {start : BackupDetail → Option UInt64} {done : List BackupDetail} {earliest : Option (BackupDetail × UInt64)}

/-- What the loop has found in some backups: the first of the earliest ones that have a start. -/
def Found (start : BackupDetail → Option UInt64) (done : List BackupDetail) : Option (BackupDetail × UInt64) → Prop
  | none => ∀ backup ∈ done, start backup = none
  | some (backup, number) => ∃ before after, done = before ++ backup :: after ∧ start backup = some number ∧
      (∀ other ∈ before, ∀ n ∈ start other, number < n) ∧ ∀ other ∈ after, ∀ n ∈ start other, number ≤ n

theorem Found.min {backup : BackupDetail} {number : UInt64} (h : Found start done (some (backup, number))) :
    ∀ other ∈ done, ∀ n ∈ start other, number ≤ n := by
  obtain ⟨before, after, rfl, hstart, hbefore, hafter⟩ := h
  refine forall_mem_append.mpr ⟨fun other hother n hn => UInt64.le_of_lt (hbefore other hother n hn), ?_⟩
  exact forall_mem_cons.mpr ⟨fun n hn => Option.some.inj (hstart.symm.trans hn) ▸ UInt64.le_refl _, hafter⟩

theorem Found.skip (h : Found start done earliest) {backup : BackupDetail} (hnone : start backup = none) :
    Found start (done ++ [backup]) earliest := by
  cases earliest with
  | none => exact forall_mem_append.mpr ⟨h, forall_mem_singleton.mpr hnone⟩
  | some found =>
    obtain ⟨before, after, rfl, hstart, hbefore, hafter⟩ := h
    exact ⟨before, after ++ [backup], by simp, hstart, hbefore,
      forall_mem_append.mpr ⟨hafter, by simp [hnone]⟩⟩

theorem Found.earlier (h : Found start done earliest) {backup : BackupDetail} {number : UInt64}
    (hnumber : start backup = some number) :
    Found start (done ++ [backup]) (some (earlier earliest backup number)) := by
  cases earliest with
  | none =>
    refine ⟨done, [], rfl, hnumber, fun other hother n hn => ?_, by simp⟩
    rw [h other hother] at hn
    cases hn
  | some found =>
    rw [Verify.earlier]
    split_ifs with hlt
    · exact ⟨_, [], rfl, hnumber, fun other hother n hn => UInt64.lt_of_lt_of_le hlt (h.min other hother n hn), by simp⟩
    · obtain ⟨before, after, rfl, hstart, hbefore, hafter⟩ := h
      refine ⟨before, after ++ [backup], by simp, hstart, hbefore, forall_mem_append.mpr ⟨hafter, ?_⟩⟩
      simpa [hnumber] using UInt64.not_lt.mp hlt

variable {w : Wal.WalSize} {currentTimeline : UInt32} {switchSegNo : Table UInt32 UInt64} {backups : List BackupDetail}

/-- The number of the start segment, if the check accepts the backup. -/
def accepted (w : Wal.WalSize) (currentTimeline : UInt32) (switchSegNo : Table UInt32 UInt64) (backup : BackupDetail) :
    Option UInt64 :=
  ((startSegment w backup).filter (checkBackupIsCorrect currentTimeline backup · switchSegNo)).map (·.number)

theorem findEarliestFrom_found (h : Found (accepted w currentTimeline switchSegNo) done earliest)
    (hparsed : ∀ backup ∈ backups, startSegment w backup ≠ none) :
    ∃ found, findEarliestFrom w currentTimeline switchSegNo earliest backups = .ok found ∧
      Found (accepted w currentTimeline switchSegNo) (done ++ backups) found := by
  induction backups generalizing done earliest with
  | nil => exact ⟨earliest, rfl, by rwa [append_nil]⟩
  | cons backup backups ih =>
    obtain ⟨hbackup, hrest⟩ := forall_mem_cons.mp hparsed
    obtain ⟨segment, hsegment⟩ := Option.ne_none_iff_exists'.mp hbackup
    rw [findEarliestFrom, hsegment, ← singleton_append, ← append_assoc]
    dsimp only
    split_ifs with hcheck
    · exact ih (h.earlier (by simp [accepted, hsegment, hcheck])) hrest
    · exact ih (h.skip (by simp [accepted, hsegment, hcheck])) hrest

theorem findEarliestFrom_of_notParsed {backup : BackupDetail} (hmem : backup ∈ backups)
    (h : startSegment w backup = none) :
    findEarliestFrom w currentTimeline switchSegNo earliest backups = .error .notWalFilename := by
  induction backups generalizing earliest with
  | nil => cases hmem
  | cons first backups ih =>
    rw [findEarliestFrom]
    cases hsegment : startSegment w first with
    | none => rfl
    | some segment =>
      have hrest : backup ∈ backups := by
        refine (mem_cons.mp hmem).resolve_left ?_
        rintro rfl
        cases h.symm.trans hsegment
      dsimp only
      split_ifs
      · exact ih hrest
      · exact ih hrest

end Loop

/-- Of two places in a list, one is the other, or comes before it. -/
theorem eq_or_mem_of_split {α : Type*} {before before' after after' : List α} {a b : α}
    (h : before ++ a :: after = before' ++ b :: after') : a = b ∨ a ∈ before' ∨ a ∈ after' ∧ b ∈ before := by
  rcases append_eq_append_iff.mp h with ⟨middle, rfl, hrest⟩ | ⟨middle, rfl, hrest⟩ <;>
    rcases middle with _ | ⟨first, middle⟩ <;> simp_all

section Result

variable {w : Wal.WalSize} {history : History} {switchSegNo : Table UInt32 UInt64} {backups : List BackupDetail}

theorem findsEarliest_error_iff (err : FindError) : history.FindsEarliest w backups (.error err) ↔
    ∀ backup ∈ backups, ∀ segment, ¬ history.Eligible w backup segment := by
  constructor
  · exact fun h => h.2.mp ⟨err, rfl⟩
  · exact fun h => ⟨by rintro _ _ ⟨⟩, iff_of_true ⟨err, rfl⟩ h⟩

variable (haccepted : ∀ backup number, accepted w history.current switchSegNo backup = some number ↔
  ∃ timeline, history.Recognised w backup ⟨number, timeline⟩ ∨
    startSegment w backup = some ⟨number, timeline⟩ ∧ backup.isPermanent = false ∧
      history.Overlooked w ⟨number, timeline⟩)

include haccepted

theorem findsEarliest_none_iff (h : Found (accepted w history.current switchSegNo) backups none) :
    history.FindsEarliest w backups (.error .noCorrectBackupFound) ↔ history.Undisturbed w backups := by
  have hnone {backup : BackupDetail} {number : UInt64} (hmem : backup ∈ backups) :
      accepted w history.current switchSegNo backup ≠ some number := by
    rw [h backup hmem]
    exact nofun
  rw [findsEarliest_error_iff]
  constructor
  · intro hnot
    refine ⟨fun before backup after segment hsplit hsegment hp hover => ?_, fun backup hmem segment he => ?_⟩
    · refine absurd ((haccepted backup segment.number).mpr ⟨segment.timeline, .inr ⟨hsegment, hp, hover⟩⟩) (hnone ?_)
      rw [hsplit]
      exact mem_append_right _ mem_cons_self
    · exact absurd he (hnot backup hmem segment)
  · rintro ⟨-, hlost⟩ backup hmem segment he
    obtain ⟨other, hother, s, hs⟩ : ∃ other ∈ backups, ∃ s, history.Recognised w other s := by
      by_cases hl : history.Lost w segment
      · obtain ⟨other, hother, s, hs, -⟩ := hlost backup hmem segment he hl
        exact ⟨other, hother, s, hs⟩
      · exact ⟨backup, hmem, segment, he, hl⟩
    exact hnone hother ((haccepted other s.number).mpr ⟨s.timeline, .inl hs⟩)

theorem findsEarliest_some_iff {backup : BackupDetail} {number : UInt64}
    (h : Found (accepted w history.current switchSegNo) backups (some (backup, number))) :
    history.FindsEarliest w backups (.ok (backup, number)) ↔ history.Undisturbed w backups := by
  have hle := h.min
  obtain ⟨before, after, rfl, hstart, hbefore, hafter⟩ := h
  have hrecognised {other : BackupDetail} {s : WalSegmentDescription} (hs : history.Recognised w other s) :
      accepted w history.current switchSegNo other = some s.number :=
    (haccepted other s.number).mpr ⟨s.timeline, .inl hs⟩
  constructor
  · rintro ⟨hok, -⟩
    obtain ⟨-, ⟨timeline, he⟩, hmin⟩ := hok _ _ rfl
    have hnot {s : WalSegmentDescription} (hs : startSegment w backup = some s) : ¬ history.Overlooked w s :=
      fun hover => hover.not_covers (Option.some.inj (he.1.symm.trans hs) ▸ he.2.2)
    have hfound : history.Recognised w backup ⟨number, timeline⟩ := by
      obtain ⟨timeline', hr | ⟨hsegment, -, hover⟩⟩ := (haccepted backup number).mp hstart
      · rwa [Option.some.inj (he.1.symm.trans hr.1.1)]
      · exact absurd hover (hnot hsegment)
    refine ⟨fun before' wrong after' segment hsplit hsegment hp hover => ?_, fun other hother s ho _ => ?_⟩
    · have hwrong := (haccepted wrong segment.number).mpr ⟨segment.timeline, .inr ⟨hsegment, hp, hover⟩⟩
      rcases eq_or_mem_of_split hsplit with rfl | hmem | ⟨hmem, hmem'⟩
      · exact absurd hover (hnot hsegment)
      · exact .inl ⟨backup, hmem, _, hfound, hle wrong (hsplit ▸ mem_append_right _ mem_cons_self) _ hwrong⟩
      · exact .inr ⟨backup, hmem, _, hfound, hbefore wrong hmem' _ hwrong⟩
    · exact ⟨backup, by simp, _, hfound, hmin other hother s ho⟩
  · rintro ⟨hover, hlost⟩
    have hfound : ∃ timeline, history.Recognised w backup ⟨number, timeline⟩ := by
      obtain ⟨timeline, hr | ⟨hsegment, hp, hwrong⟩⟩ := (haccepted backup number).mp hstart
      · exact ⟨timeline, hr⟩
      · rcases hover before backup after _ rfl hsegment hp hwrong with
          ⟨other, hother, s, hs, hsle⟩ | ⟨other, hother, s, hs, hslt⟩
        · exact absurd hsle (UInt64.not_le.mpr (hbefore other hother _ (hrecognised hs)))
        · exact absurd hslt (UInt64.not_lt.mpr (hafter other hother _ (hrecognised hs)))
    obtain ⟨timeline, hfound⟩ := hfound
    refine ⟨?_, iff_of_false (by rintro ⟨_, ⟨⟩⟩) fun hnone => hnone backup (by simp) _ hfound.1⟩
    rintro _ _ ⟨⟩
    refine ⟨by simp, ⟨timeline, hfound.1⟩, fun other hother s he => ?_⟩
    by_cases hl : history.Lost w s
    · obtain ⟨third, hthird, s', hs', hsle⟩ := hlost other hother s he hl
      exact UInt64.le_trans (hle third hthird _ (hrecognised hs')) hsle
    · exact hle other hother _ (hrecognised ⟨he, hl⟩)

end Result

/-- The earliest eligible backup is found exactly if all names are parsed and the mistakes of the check do not
show, or if some name is not parsed and no backup is eligible. -/
theorem findEarliestBackup_iff (w : Wal.WalSize) (history : History) (hne : history.records ≠ [])
    (switches : Table UInt64 TimelineHistoryRecord)
    (hswitches : createTimelineSwitchMap w (.ok history.records) = .ok switches) (order : MapOrder UInt64)
    (backups : List BackupDetail) :
    history.FindsEarliest w backups
        (findEarliestBackup w history.current backups (switchSegNoByTimeline w order switches)) ↔
      (∀ backup ∈ backups, startSegment w backup ≠ none) ∧ history.Undisturbed w backups ∨
        (∃ backup ∈ backups, startSegment w backup = none) ∧
          ∀ backup ∈ backups, ∀ segment, ¬ history.Eligible w backup segment := by
  by_cases hparsed : ∀ backup ∈ backups, startSegment w backup ≠ none
  · have haccepted : ∀ backup number,
        accepted w history.current (switchSegNoByTimeline w order switches) backup = some number ↔
          ∃ timeline, history.Recognised w backup ⟨number, timeline⟩ ∨
            startSegment w backup = some ⟨number, timeline⟩ ∧ backup.isPermanent = false ∧
              history.Overlooked w ⟨number, timeline⟩ := by
      intro backup number
      rw [accepted, Option.map_eq_some_iff]
      simp only [Option.filter_eq_some_iff, checkBackupIsCorrect_iff hswitches order hne,
        passes_iff hswitches order, History.Recognised, History.Eligible]
      constructor
      · rintro ⟨⟨_, timeline⟩, ⟨hsegment, hp, hover | ⟨hcovers, hlost⟩⟩, rfl⟩
        · exact ⟨timeline, .inr ⟨hsegment, hp, hover⟩⟩
        · exact ⟨timeline, .inl ⟨⟨hsegment, hp, hcovers⟩, hlost⟩⟩
      · rintro ⟨timeline, ⟨⟨hsegment, hp, hcovers⟩, hlost⟩ | ⟨hsegment, hp, hover⟩⟩
        · exact ⟨_, ⟨hsegment, hp, .inr ⟨hcovers, hlost⟩⟩, rfl⟩
        · exact ⟨_, ⟨hsegment, hp, .inl hover⟩, rfl⟩
    have hno : ¬ ∃ backup ∈ backups, startSegment w backup = none :=
      fun ⟨backup, hmem, hnone⟩ => hparsed backup hmem hnone
    rw [and_iff_right hparsed, or_iff_left fun h => hno h.1, findEarliestBackup]
    obtain ⟨found, hresult, hfound⟩ := findEarliestFrom_found (show Found _ [] none by simp [Found]) hparsed
    rw [hresult]
    cases found with
    | none => exact findsEarliest_none_iff haccepted hfound
    | some found => exact findsEarliest_some_iff haccepted hfound
  · rw [or_iff_right fun h => hparsed h.1]
    push Not at hparsed
    obtain ⟨backup, hmem, hnone⟩ := hparsed
    rw [and_iff_right ⟨backup, hmem, hnone⟩, findEarliestBackup, findEarliestFrom_of_notParsed hmem hnone,
      findsEarliest_error_iff]

/-- A backup of timeline 1 in segment 1. -/
def firstBackup : BackupDetail := ⟨"000000010000000000000001".toList, false⟩

/-- A backup of timeline 3 in segment 1, before the timeline branched off in segment 3. -/
def earlyBackup : BackupDetail := ⟨"000000030000000000000001".toList, false⟩

theorem startSegment_earlyBackup : startSegment .default earlyBackup = some ⟨1, 3⟩ := by decide +kernel

/-- The early backup does no harm behind one of timeline 1 that started in the same segment. -/
theorem findEarliestBackup_shadowed : oneSwitch.FindsEarliest .default [firstBackup, earlyBackup]
    (findEarliestBackup .default 3 [firstBackup, earlyBackup] (switchSegNoByTimeline .default (.given _)
      (Table.empty.setAll (·.switchSegmentNo .default) id oneSwitch.records))) := by
  have hsegment : startSegment .default firstBackup = some ⟨1, 1⟩ := by decide +kernel
  have hlost : ∀ segment, ¬ oneSwitch.Lost .default segment := by
    rintro segment ⟨r, hr, -, hnot⟩
    obtain rfl := mem_singleton.mp hr
    exact hnot ⟨hr, fun s hs _ => mem_singleton.mp hs ▸ UInt32.le_refl _⟩
  have hrecognised : oneSwitch.Recognised .default firstBackup ⟨1, 1⟩ := by
    refine ⟨⟨hsegment, rfl, ⟨0, by decide, mem_cons_self⟩, fun r hr _ => ?_⟩, hlost _⟩
    rw [mem_singleton.mp hr]
    decide +kernel
  refine (findEarliestBackup_iff .default oneSwitch (cons_ne_nil _ _) _ rfl (.given _) _).mpr
    (.inl ⟨by simp [hsegment, startSegment_earlyBackup], ?_, fun _ _ segment _ h => absurd h (hlost segment)⟩)
  intro before backup after segment hsplit hstart _ hover
  rcases before with _ | ⟨first, _ | ⟨second, before⟩⟩
  · cases hsplit
    cases hsegment.symm.trans hstart
    exact absurd hrecognised.1.2.2 hover.not_covers
  · obtain ⟨rfl, hrest⟩ := cons.inj hsplit
    cases hrest
    obtain rfl := Option.some.inj (startSegment_earlyBackup.symm.trans hstart)
    exact .inl ⟨_, mem_cons_self, _, hrecognised, by decide⟩
  · simp at hsplit

theorem earlyBackup_found : findEarliestBackup .default 3 [earlyBackup]
      (switchSegNoByTimeline .default (.given _)
        (Table.empty.setAll (·.switchSegmentNo .default) id oneSwitch.records)) = .ok (earlyBackup, 1) ∧
    ¬ oneSwitch.FindsEarliest .default [earlyBackup] (.ok (earlyBackup, 1)) := by
  refine ⟨by decide +kernel, fun h => ?_⟩
  obtain ⟨timeline, heq, -, ⟨first, hle, hfirst⟩, -⟩ := (h.1 _ _ rfl).2.1
  rw [startSegment_earlyBackup] at heq
  obtain rfl : 3 = timeline := congrArg WalSegmentDescription.timeline (Option.some.inj heq)
  have hbegin := History.switchSegmentNo_le_beginning (r := ⟨1, 0x3000028⟩) mem_cons_self hfirst (by decide)
  exact absurd (UInt64.le_trans hbegin hle) (by decide +kernel)

end WalG.Verify
