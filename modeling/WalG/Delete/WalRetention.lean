import WalG.Delete.IncrementChain

/-! # Segments of retained backups

A backup needs the segments of its timeline from its start on.
-/
namespace WalG.Delete
open Foundation Wal List

/-- A stored segment, under any compression. -/
def walObject {w : WalSize} (segment : WalSegment w) (extension : Text) : Text :=
  walPath ++ (segment.filename ++ extension)

namespace PgStorage

variable {w : WalSize} {s : PgStorage w} {byTime : Bool} {n target : PgBackupName w}
  {objects deleted : List Text} {segment : WalSegment w} {extension : Text}

/-- A restore from the backup reads this segment. -/
def Needs (n : PgBackupName w) (segment : WalSegment w) : Prop :=
  segment.timeline = n.start.timeline ∧ n.start.no ≤ segment.no

theorem mem_deleted_wal (hextension : '_' ∉ extension)
    (h : (s.handler byTime).deleteBeforeTarget objects (s.object byTime target) = .ok deleted) :
    walObject segment extension ∈ deleted ↔ walObject segment extension ∈ objects ∧
      (if byTime then segment.no < target.start.no
        else segment.timeline < target.start.timeline ∨
          segment.timeline = target.start.timeline ∧ segment.no < target.start.no) ∧
      segment.filename ∉ s.permanentWals := by
  rw [(mem_deleteBeforeTarget h).2, walObject, s.less_wal byTime segment hextension, isPermanent,
    isPermanent_wal, Except.ok.injEq, decide_eq_false_iff_not]
  cases byTime <;> simp [Prod.Lex.toLex_lt_toLex]

theorem key_time_lt_iff {m : PgBackupName w} :
    s.key true m < s.key true n ↔ (s.metadata m).startTime < (s.metadata n).startTime := by
  simp only [key, if_true, Prod.Lex.toLex_lt_toLex, lt_self_iff_false, and_false, or_false]

/-- Before a target, in the order of timelines and segments, nothing is needed by
a backup that is not before it. -/
theorem not_needs_of_ordered (hbefore : segment.timeline < target.start.timeline ∨
      segment.timeline = target.start.timeline ∧ segment.no < target.start.no)
    (hretained : ¬ s.key false n < s.key false target) : ¬ Needs n segment := by
  rintro ⟨htimeline, hno⟩
  rw [key_lt_iff] at hretained
  omega

/-- In the order of start times a retained backup loses a segment that the target
does not reach. -/
theorem deleteBeforeTarget_drops_needed (s : PgStorage w) (hn : n ∈ s.names) (htarget : target ∈ s.names)
    (hfull : s.increment target = none) (hretained : (s.metadata target).startTime ≤ (s.metadata n).startTime)
    (hextension : '_' ∉ extension) (hmem : walObject segment extension ∈ s.storage.objects)
    (hbefore : segment.no < target.start.no) (hpermanent : segment.filename ∉ s.permanentWals) :
    ∃ deleted, (s.handler true).deleteBeforeTarget s.storage.objects (s.object true target) = .ok deleted ∧
      Remains deleted n ∧ walObject segment extension ∈ deleted := by
  obtain ⟨deleted, hdeleted⟩ := deleteBeforeTarget_ok s true hfull s.storage.objects
  refine ⟨deleted, hdeleted, ?_, (mem_deleted_wal hextension hdeleted).mpr ⟨hmem, hbefore, hpermanent⟩⟩
  rw [remains_iff htarget hn hdeleted, key_time_lt_iff]
  exact fun h => absurd h.1 (not_lt.mpr hretained)

/-- A command deletes no segment that a retained impermanent backup needs, if and only
if the order is that of timelines and segments, or no such segment has a lower number
than the full backup that the command selects. -/
theorem run_keeps_needed_wal_iff (s : PgStorage w) (byTime : Bool) (sort : SliceSort BackupObject)
    (command : DeleteCommand) (hcommand : ∀ findFull targetName, command ≠ .target findFull targetName) :
    (∀ deleted, (s.handler byTime).run sort s.storage.objects command = some (.ok deleted) →
        ∀ n ∈ s.names, s.permanent n = false → Remains deleted n →
          ∀ segment extension, '_' ∉ extension → Needs n segment → walObject segment extension ∉ deleted) ↔
      (byTime = true → ∀ target, s.Selects byTime sort command target → s.increment target = none →
        ∀ n ∈ s.names, s.permanent n = false → (s.metadata target).startTime ≤ (s.metadata n).startTime →
          ∀ segment extension, '_' ∉ extension → walObject segment extension ∈ s.storage.objects →
            Needs n segment → segment.no < target.start.no → segment.filename ∈ s.permanentWals) := by
  constructor
  · rintro hkeeps rfl target hselects hfull n hn hp hretained segment extension hextension hmem hneeds hbefore
    by_contra hpermanent
    obtain ⟨deleted, hdeleted, hremains, hdropped⟩ := deleteBeforeTarget_drops_needed s hn hselects.mem hfull
      hretained hextension hmem hbefore hpermanent
    exact hkeeps deleted ((run_ok_iff hcommand).mpr (.inr ⟨target, hselects, hdeleted⟩)) n hn hp hremains
      segment extension hextension hneeds hdropped
  · intro hcond deleted hrun n hn hp hremains segment extension hextension hneeds hmem
    rcases (run_ok_iff hcommand).mp hrun with ⟨-, rfl⟩ | ⟨target, hselects, hdeleted⟩
    · cases hmem
    · obtain ⟨hfull, -⟩ := mem_deleteBeforeTarget hdeleted
      obtain ⟨hobject, hbefore, hpermanent⟩ := (mem_deleted_wal hextension hdeleted).mp hmem
      have hretained : ¬ s.key byTime n < s.key byTime target := fun h =>
        (remains_iff hselects.mem hn hdeleted).mp hremains ⟨h, hp⟩
      cases byTime with
      | false => exact not_needs_of_ordered hbefore hretained hneeds
      | true =>
        rw [key_time_lt_iff, not_lt] at hretained
        exact hpermanent (hcond rfl target hselects hfull n hn hp hretained segment extension hextension
          hobject hneeds hbefore)

/-- The first segment of the backup made after a switch to the second timeline. -/
def switchedSegment : WalSegment .default := .ofWords 2 3

/-- A full backup of segment five, then one of segment three on a new timeline. -/
def switchedBackups : PgStorage .default :=
  ofBackups [fullAt 5, ⟨switchedSegment, none⟩]
    (by decide)
    (fun _ => none) (fun n => ⟨false, 0, 0, n.start.timeline⟩) [walObject switchedSegment []]
    (by
      intro o ho
      rw [mem_singleton.mp ho]
      rfl)

theorem switched_mem : ⟨switchedSegment, none⟩ ∈ switchedBackups.names := mem_cons_of_mem _ mem_cons_self

/-- Nothing is lost before the backup of the new timeline. -/
theorem run_keeps_needed_wal_switched :
    ∃ deleted, (switchedBackups.handler true).run (mergeSlice _) switchedBackups.storage.objects
        (.before .noDelete (.name (⟨switchedSegment, none⟩ : PgBackupName .default).sentinel)) = some (.ok deleted) ∧
      ∀ n ∈ switchedBackups.names, switchedBackups.permanent n = false → Remains deleted n →
        ∀ segment extension, '_' ∉ extension → Needs n segment → walObject segment extension ∉ deleted := by
  have hselects := selects_beforeName switchedBackups true switched_mem (mergeSlice _)
  obtain ⟨deleted, hdeleted⟩ := deleteBeforeTarget_ok switchedBackups true (n := ⟨switchedSegment, none⟩) rfl
    switchedBackups.storage.objects
  have hrun := (run_ok_iff fun _ _ => DeleteCommand.noConfusion).mpr (.inr ⟨_, hselects, hdeleted⟩)
  refine ⟨deleted, hrun, (run_keeps_needed_wal_iff _ true (mergeSlice _) _
    fun _ _ => DeleteCommand.noConfusion).mpr ?_ deleted hrun⟩
  intro _ target hselects' _ n hn _ hretained segment _ _ _ hneeds hbefore
  rw [Selects, hselects'] at hselects
  obtain rfl := switchedBackups.object_injective true (Option.some.inj (Except.ok.inj hselects))
  rcases mem_cons.mp hn with rfl | hn
  · exact absurd hretained (by decide)
  · rw [mem_singleton.mp hn] at hneeds
    exact absurd hbefore (not_lt.mpr hneeds.2)

theorem switched_segment_deleted :
    ∃ deleted, (switchedBackups.handler true).run (mergeSlice _) switchedBackups.storage.objects
        (.before .noDelete (.name (fullAt 5).sentinel)) = some (.ok deleted) ∧
      switchedBackups.permanent ⟨switchedSegment, none⟩ = false ∧
      Remains deleted (⟨switchedSegment, none⟩ : PgBackupName .default) ∧
      Needs (⟨switchedSegment, none⟩ : PgBackupName .default) switchedSegment ∧
      walObject switchedSegment [] ∈ deleted := by
  have htarget : fullAt 5 ∈ switchedBackups.names := mem_cons_self
  have hmem : walObject switchedSegment [] ∈ switchedBackups.storage.objects :=
    mem_append_right _ (mem_singleton_self _)
  obtain ⟨deleted, hdeleted, hremains, hdropped⟩ := deleteBeforeTarget_drops_needed switchedBackups switched_mem
    htarget rfl (by decide) not_mem_nil hmem (by decide) (by decide)
  have hselects := selects_beforeName switchedBackups true htarget (mergeSlice _)
  exact ⟨deleted, (run_ok_iff fun _ _ => DeleteCommand.noConfusion).mpr (.inr ⟨_, hselects, hdeleted⟩), rfl,
    hremains, ⟨rfl, le_rfl⟩, hdropped⟩

end PgStorage

end WalG.Delete
