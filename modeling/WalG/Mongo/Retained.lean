import WalG.Foundation.Stream
import WalG.Mongo.Purge

/-! # What a purge of the oplog deletes

The sentinel lacks the timestamp after the backup, so only an archive that holds the timestamp
before a backup counts as overlapping it.
-/
namespace WalG.Mongo
open Foundation List

namespace BackupRun

def loaded (r : BackupRun) : Backup := { r.sentinel with backupName := r.name }

/-- The zero timestamp after the backup is met only by an archive from zero on. -/
theorem archInBackup_loaded (r : BackupRun) (arch : Archive) :
    archInBackup arch r.loaded ↔
      (arch.startTS ≤ r.before.lastMajTS ∧ r.before.lastMajTS ≤ arch.endTS) ∨ arch.startTS = 0 := by
  have hle := arch.start_le_end
  have hzero : ∀ t : Timestamp, ¬ t < 0 := fun t => not_lt.mpr t.zero_le
  simp only [archInBackup, timestampInInterval, loaded, sentinel, lessTS_eq, Bool.or_eq_true, Bool.and_eq_true,
    decide_eq_true_iff, beq_iff_eq, hzero, and_false, false_and, false_or]
  constructor
  · rintro ((((h | h) | (h | h)) | ((⟨hs, he⟩ | h) | h)) | (h | h))
    · exact .inl ⟨h.le, h ▸ hle⟩
    · exact .inr h
    · exact .inl ⟨h ▸ hle, h.ge⟩
    · exact .inr (Timestamp.le_zero.mp (h ▸ hle))
    · exact .inl ⟨hs.le, he.le⟩
    · exact .inl ⟨h.ge, h ▸ hle⟩
    · exact .inl ⟨h ▸ hle, h.le⟩
    · exact .inr h.symm
    · exact .inr (Timestamp.le_zero.mp (h ▸ hle))
  · rintro (⟨hs, he⟩ | h)
    · rcases hs.lt_or_eq with hs | hs
      · rcases he.lt_or_eq with he | he
        · exact .inl (.inr (.inl (.inl ⟨hs, he⟩)))
        · exact .inl (.inr (.inr he))
      · exact .inl (.inl (.inl (.inl hs)))
    · exact .inl (.inl (.inl (.inr h)))

end BackupRun

theorem firstOverlappingBackupForArch_eq_empty (arch : Archive) {backups : List Backup}
    (hname : ∀ b ∈ backups, b.backupName ≠ []) :
    firstOverlappingBackupForArch arch backups = {} ↔ ∀ b ∈ backups, ¬ archInBackup arch b := by
  induction backups with
  | nil => simp [firstOverlappingBackupForArch]
  | cons b backups ih =>
    rw [forall_mem_cons] at hname
    rw [firstOverlappingBackupForArch, forall_mem_cons]
    split_ifs with hin
    · refine ⟨fun h => absurd (congrArg Backup.backupName h) hname.1, fun h => absurd hin h.1⟩
    · rw [ih hname.2]
      exact ⟨fun h => ⟨hin, h⟩, fun h => h.2⟩

/-- The last listed backup that finished in the retain second or later. -/
def Pitr (backups : List Backup) (retainAfter : ℤ) (b : Backup) : Prop :=
  ∃ newer older, backups = newer ++ b :: older ∧ unix retainAfter ≤ unix b.finishLocalTime ∧
    ∀ c ∈ older, unix c.finishLocalTime < unix retainAfter

/-- Newest first, as the backups are loaded. -/
def NewestFirst (backups : List Backup) : Prop :=
  backups.Pairwise fun b c => c.finishLocalTime ≤ b.finishLocalTime

section Oldest

variable {backups : List Backup} {retainAfter : ℤ}

theorem oldestBackupLoop_eq {oldest : Backup} (hsorted : NewestFirst (oldest :: backups))
    (hoff : unix retainAfter ≤ unix oldest.finishLocalTime) :
    ∃ b, oldestBackupLoop (unix retainAfter) oldest (unix oldest.finishLocalTime - unix retainAfter) backups =
      .ok b ∧ Pitr (oldest :: backups) retainAfter b := by
  induction backups generalizing oldest with
  | nil => exact ⟨oldest, rfl, [], [], rfl, hoff, by simp⟩
  | cons c backups ih =>
    rw [NewestFirst, pairwise_cons] at hsorted
    have hc := unix_le_unix (hsorted.1 c mem_cons_self)
    rw [oldestBackupLoop, if_neg (by omega)]
    split_ifs with hneg
    · refine ⟨oldest, rfl, [], c :: backups, rfl, hoff, fun d hd => ?_⟩
      rcases mem_cons.mp hd with rfl | hd
      · omega
      · have hd := unix_le_unix ((pairwise_cons.mp hsorted.2).1 d hd)
        omega
    · obtain ⟨b, hb, newer, older, hsplit, hoff, hold⟩ := ih hsorted.2 (by omega)
      exact ⟨b, hb, oldest :: newer, older, by rw [hsplit]; rfl, hoff, hold⟩

theorem Pitr.unique (hsorted : NewestFirst backups) {b c : Backup} (hb : Pitr backups retainAfter b)
    (hc : Pitr backups retainAfter c) : b = c := by
  obtain ⟨newer, older, rfl, hoff, hold⟩ := hb
  obtain ⟨newer', older', hsplit, hoff', hold'⟩ := hc
  induction newer generalizing newer' with
  | nil =>
    cases newer' with
    | nil => exact (cons.inj hsplit).1
    | cons d newer' =>
      cases hsplit
      exact absurd (hold c (by simp)) (not_lt.mpr hoff')
  | cons d newer ih =>
    rw [NewestFirst, cons_append, pairwise_cons] at hsorted
    cases newer' with
    | nil =>
      cases hsplit
      exact absurd (hold' b (by simp)) (not_lt.mpr hoff)
    | cons d' newer' => exact ih hsorted.2 newer' (cons.inj hsplit).2

theorem oldestBackupAfterTime_eq_ok (hsorted : NewestFirst backups) {b : Backup} :
    oldestBackupAfterTime backups retainAfter = .ok b ↔ Pitr backups retainAfter b := by
  cases backups with
  | nil => simp [oldestBackupAfterTime, Pitr]
  | cons oldest backups =>
    rw [oldestBackupAfterTime]
    split_ifs with hneg
    · refine ⟨nofun, ?_⟩
      rintro ⟨newer, older, hsplit, hoff, -⟩
      have hmem : b ∈ oldest :: backups := hsplit ▸ by simp
      have hle : unix b.finishLocalTime ≤ unix oldest.finishLocalTime := by
        rcases mem_cons.mp hmem with rfl | hmem
        · exact le_rfl
        · exact unix_le_unix ((pairwise_cons.mp hsorted).1 b hmem)
      omega
    · have hoff : unix retainAfter ≤ unix oldest.finishLocalTime := by omega
      obtain ⟨c, hc, hpitr⟩ := oldestBackupLoop_eq hsorted hoff
      rw [hc]
      constructor
      · rintro h
        exact Except.ok.inj h ▸ hpitr
      · exact fun h => congrArg _ (hpitr.unique hsorted h)

end Oldest

namespace MongoStorage

variable (s : MongoStorage) (sort : SliceSort Backup)

/-- The stored backups as they are loaded. -/
def loaded : List Backup := sort.sort finishAfter (s.runs.map BackupRun.loaded)

theorem fetchSentinel_of_mem {r : BackupRun} (hr : r ∈ s.runs) : s.fetchSentinel r.name = .ok r.sentinel := by
  have hfind : s.runs.find? (fun q => q.name = r.name) = some r := by
    have hnodup := s.names_nodup
    generalize s.runs = runs at hr hnodup
    induction runs with
    | nil => cases hr
    | cons q runs ih =>
      rw [map_cons, nodup_cons] at hnodup
      rcases mem_cons.mp hr with rfl | hr
      · exact find?_cons_of_pos (by simp)
      · rw [find?_cons_of_neg, ih hr hnodup.2]
        simp only [decide_eq_true_iff]
        exact fun h => hnodup.1 (h ▸ mem_map_of_mem hr)
  rw [fetchSentinel, hfind]
  rfl

theorem loadBackups_eq : s.loadBackups sort (s.runs.map BackupRun.name) = .ok (s.loaded sort) := by
  have hmap : ∀ {runs : List BackupRun}, (∀ r ∈ runs, r ∈ s.runs) → (runs.map BackupRun.name).mapM (fun name => do
      let sentinel ← s.fetchSentinel name
      Except.ok (backupMeta name sentinel)) = .ok (runs.map BackupRun.loaded) := by
    intro runs hruns
    induction runs with
    | nil => rfl
    | cons r runs ih =>
      rw [forall_mem_cons] at hruns
      rw [map_cons, mapM_cons, s.fetchSentinel_of_mem hruns.1, ih hruns.2]
      rfl
  rw [loadBackups, hmap fun r hr => hr]
  rfl

variable {s sort}

theorem mem_loaded {b : Backup} : b ∈ s.loaded sort ↔ ∃ r ∈ s.runs, r.loaded = b := by
  rw [loaded, (sort.perm _ _).mem_iff, mem_map]

theorem finishAfter_eq (b c : Backup) : finishAfter b c = decide (-b.finishLocalTime < -c.finishLocalTime) := by
  simp [finishAfter]

theorem newestFirst_loaded : NewestFirst (s.loaded sort) :=
  (sort.sorted_key fun b _ c _ => finishAfter_eq b c).imp fun hbc => neg_le_neg_iff.mp hbc

variable (s sort)

/-- A purge gives the archive to the deletion. -/
def Deletes (retainAfter : ℤ) (dryRun : Bool) (arch : Archive) : Prop :=
  ∃ deleted, handleOplogPurge s sort retainAfter dryRun = .ok deleted ∧ arch ∈ deleted

/-- A backup that finished at the first time at or after the retain time. -/
def OldestSince (retainAfter : ℤ) (r : BackupRun) : Prop :=
  r ∈ s.runs ∧ retainAfter ≤ r.finishTime ∧ ∀ q ∈ s.runs, retainAfter ≤ q.finishTime → r.finishTime ≤ q.finishTime

/-- The archive meets the interval of a backup, or reaches beyond the start of the
oldest backup of the window. -/
def Needed (retainAfter : ℤ) (arch : Archive) : Prop :=
  (∃ r ∈ s.runs, arch.startTS ≤ r.after.lastMajTS ∧ r.before.lastMajTS ≤ arch.endTS) ∨
    ∃ r, s.OldestSince retainAfter r ∧ r.before.lastMajTS < arch.endTS

/-- The archive holds the timestamp before some backup, starts at zero, or reaches
beyond the start of the last listed backup of the retain second. -/
def Shielded (retainAfter : ℤ) (arch : Archive) : Prop :=
  (∃ r ∈ s.runs, arch.startTS ≤ r.before.lastMajTS ∧ r.before.lastMajTS ≤ arch.endTS) ∨ arch.startTS = 0 ∨
    ∀ b, Pitr (s.loaded sort) retainAfter b → b.mongoMeta.before.lastMajTS < arch.endTS

variable {s sort} {retainAfter : ℤ} {dryRun : Bool} {arch : Archive}

theorem mem_selectPurgingOplogArchives {retainAfterTS : Timestamp} :
    arch ∈ selectPurgingOplogArchives s.archives (s.loaded sort) retainAfterTS ↔
      arch ∈ s.archives ∧ ¬ retainAfterTS < arch.endTS ∧ ∀ r ∈ s.runs, ¬ archInBackup arch r.loaded := by
  have hname : ∀ b ∈ s.loaded sort, b.backupName ≠ [] := by
    intro b hb
    obtain ⟨r, -, rfl⟩ := mem_loaded.mp hb
    exact r.name_ne
  have hall : (∀ b ∈ s.loaded sort, ¬ archInBackup arch b) ↔ ∀ r ∈ s.runs, ¬ archInBackup arch r.loaded := by
    constructor
    · exact fun h r hr => h _ (mem_loaded.mpr ⟨r, hr, rfl⟩)
    · intro h b hb
      obtain ⟨r, hr, rfl⟩ := mem_loaded.mp hb
      exact h r hr
  rw [selectPurgingOplogArchives, mem_filter, Bool.and_eq_true, Bool.not_eq_true', lessTS_eq,
    decide_eq_false_iff_not, beq_iff_eq, firstOverlappingBackupForArch_eq_empty arch hname, hall]

theorem deletes_iff : s.Deletes sort retainAfter dryRun arch ↔ dryRun = false ∧ arch ∈ s.archives ∧
    ∃ b, Pitr (s.loaded sort) retainAfter b ∧ ¬ b.mongoMeta.before.lastMajTS < arch.endTS ∧
      ∀ r ∈ s.runs, ¬ archInBackup arch r.loaded := by
  by_cases harch : s.archives = []
  · simp [Deletes, handleOplogPurge, harch]
  by_cases hruns : s.loaded sort = []
  · have hpitr : ∀ b, ¬ Pitr (s.loaded sort) retainAfter b := by
      rintro b ⟨newer, older, hsplit, -⟩
      rw [hruns] at hsplit
      simp at hsplit
    have herror : handleOplogPurge s sort retainAfter dryRun = .error .noBackups := by
      rw [handleOplogPurge, if_neg harch, loadBackups_eq, ok_bind, if_pos hruns]
    simp [Deletes, herror, hpitr]
  have hhandle : handleOplogPurge s sort retainAfter dryRun = (do
      let b ← oldestBackupAfterTime (s.loaded sort) retainAfter
      .ok (if dryRun then [] else
        selectPurgingOplogArchives s.archives (s.loaded sort) b.mongoMeta.before.lastMajTS)) := by
    rw [handleOplogPurge, if_neg harch, loadBackups_eq, ok_bind, if_neg hruns]
  rw [Deletes, hhandle]
  constructor
  · rintro ⟨deleted, hok, hmem⟩
    obtain ⟨b, hb, hdeleted⟩ := bind_ok hok
    cases hdeleted
    cases dryRun with
    | true => simp at hmem
    | false =>
      obtain ⟨hmem, hend, hover⟩ := mem_selectPurgingOplogArchives.mp hmem
      exact ⟨rfl, hmem, b, (oldestBackupAfterTime_eq_ok newestFirst_loaded).mp hb, hend, hover⟩
  · rintro ⟨rfl, hmem, b, hb, hend, hover⟩
    rw [(oldestBackupAfterTime_eq_ok newestFirst_loaded).mpr hb]
    exact ⟨_, rfl, mem_selectPurgingOplogArchives.mpr ⟨hmem, hend, hover⟩⟩

/-- An archive that a purge may lose is one that begins during a backup, or reaches
beyond the start of the oldest backup of the window. -/
theorem deletes_not_needed_iff (s : MongoStorage) (sort : SliceSort Backup) (retainAfter : ℤ) (dryRun : Bool) :
    (∀ arch, s.Deletes sort retainAfter dryRun arch → ¬ s.Needed retainAfter arch) ↔
      (dryRun = false → ∀ arch ∈ s.archives,
        (∃ r ∈ s.runs, r.before.lastMajTS < arch.startTS ∧ arch.startTS ≤ r.after.lastMajTS) ∨
          (∃ r, s.OldestSince retainAfter r ∧ r.before.lastMajTS < arch.endTS) →
        s.Shielded sort retainAfter arch) := by
  constructor
  · intro hsafe hdry arch harch hneeded
    by_contra hshield
    simp only [Shielded, not_or, not_forall, not_exists, not_and] at hshield
    obtain ⟨hbefore, hzero, b, hb, hend⟩ := hshield
    refine hsafe arch (deletes_iff.mpr ⟨hdry, harch, b, hb, hend, fun r hr hin => ?_⟩) ?_
    · rcases (r.archInBackup_loaded arch).mp hin with ⟨hs, he⟩ | hstart
      · exact hbefore r hr hs he
      · exact hzero hstart
    · rcases hneeded with ⟨r, hr, hs, he⟩ | holdest
      · exact .inl ⟨r, hr, he, hs.le.trans arch.start_le_end⟩
      · exact .inr holdest
  · intro hshield arch hdel hneeded
    obtain ⟨hdry, harch, b, hb, hend, hover⟩ := deletes_iff.mp hdel
    have hbefore : ∀ r ∈ s.runs, ¬ (arch.startTS ≤ r.before.lastMajTS ∧ r.before.lastMajTS ≤ arch.endTS) :=
      fun r hr h => hover r hr ((r.archInBackup_loaded arch).mpr (.inl h))
    have hlost : (∃ r ∈ s.runs, r.before.lastMajTS < arch.startTS ∧ arch.startTS ≤ r.after.lastMajTS) ∨
        ∃ r, s.OldestSince retainAfter r ∧ r.before.lastMajTS < arch.endTS := by
      rcases hneeded with ⟨r, hr, hs, he⟩ | holdest
      · exact .inl ⟨r, hr, not_le.mp fun h => hbefore r hr ⟨h, he⟩, hs⟩
      · exact .inr holdest
    rcases hshield hdry arch harch hlost with ⟨r, hr, h⟩ | hzero | hpitr
    · exact hbefore r hr h
    · obtain ⟨newer, older, hsplit, -⟩ := hb
      obtain ⟨r, hr, -⟩ := mem_loaded.mp (hsplit ▸ mem_append_right newer mem_cons_self)
      exact hover r hr ((r.archInBackup_loaded arch).mpr (.inr hzero))
    · exact hend (hpitr b hb)

/-- Two backups, and an archive of oplog from the time of the first one. -/
def twoBackups : MongoStorage where
  archives := [⟨⟨12, 1⟩, ⟨15, 1⟩, [], .oplog, by decide⟩]
  runs := [⟨['a'], ⟨⟨10, 1⟩, ⟨10, 1⟩⟩, ⟨⟨20, 1⟩, ⟨20, 1⟩⟩, 10 * 10 ^ 9, 20 * 10 ^ 9, none, false, 1,
      by decide, by decide⟩,
    ⟨['b'], ⟨⟨100, 1⟩, ⟨100, 1⟩⟩, ⟨⟨110, 1⟩, ⟨110, 1⟩⟩, 100 * 10 ^ 9, 110 * 10 ^ 9, none, false, 1,
      by decide, by decide⟩]
  names_nodup := by decide

/-- The archive lies between the timestamps of the first backup and is deleted. -/
theorem twoBackups_deletes_needed : ∃ arch ∈ twoBackups.archives,
    twoBackups.Deletes (mergeSlice _) (90 * 10 ^ 9) false arch ∧ twoBackups.Needed (90 * 10 ^ 9) arch := by
  generalize mergeSlice _ = sort
  refine ⟨_, mem_singleton_self _, deletes_iff.mpr ⟨rfl, mem_singleton_self _, ?_⟩, ?_⟩
  · have hloaded : twoBackups.loaded sort = twoBackups.runs.reverse.map BackupRun.loaded :=
      sort.sort_eq_of_pairwise (fun b _ c _ => finishAfter_eq b c) (by decide) (by decide)
    rw [hloaded]
    exact ⟨_, ⟨[], _, rfl, by decide, by decide⟩, by decide, by decide⟩
  · exact .inl ⟨_, mem_cons_self, by decide, by decide⟩

end MongoStorage

end WalG.Mongo
