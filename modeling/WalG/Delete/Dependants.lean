import WalG.Delete.Handler

/-! # The search for dependant backups

The increments of a set of backups with distinct names form a forest, so the search ends unless the
target is below itself, and it meets every descendant once.
-/
namespace WalG.Delete
open Foundation List

namespace DeleteHandler

variable (h : DeleteHandler)

/-- `y` is an increment made from `x`. -/
def IncrementOf (x y : BackupObject) : Prop := y ∈ h.incrementsByBackup x.backupName

variable {h} {x y target : BackupObject}

theorem incrementOf_iff : h.IncrementOf x y ↔
    y ∈ h.backups ∧ y.isFullBackup = false ∧ y.incrementFromName = x.backupName := by
  rw [IncrementOf, incrementsByBackup, mem_filter, Bool.and_eq_true, decide_eq_true_eq, Bool.not_eq_true']

theorem eq_of_backupName_eq (hnames : (h.backups.map BackupObject.backupName).Nodup) (hx : x ∈ h.backups)
    (hy : y ∈ h.backups) (heq : x.backupName = y.backupName) : x = y :=
  inj_on_of_nodup_map hnames hx hy heq

theorem forest (hnames : (h.backups.map BackupObject.backupName).Nodup) :
    Forest (fun curr => h.incrementsByBackup curr.backupName) h.backups where
  subset _ _ _ hy := (mem_filter.mp hy).1
  nodup _ _ := (Nodup.of_map _ hnames).filter _
  parent x hx x' hx' y hy hy' := by
    obtain ⟨-, -, hfrom⟩ := incrementOf_iff.mp hy
    obtain ⟨-, -, hfrom'⟩ := incrementOf_iff.mp hy'
    exact eq_of_backupName_eq hnames hx hx' (hfrom.symm.trans hfrom')

/-- The search ends and meets the target and its descendants once each. -/
theorem findDependantBackups_eq (hnames : (h.backups.map BackupObject.backupName).Nodup)
    (hcycle : ¬ Relation.TransGen h.IncrementOf target target) (htarget : target ∈ h.backups) :
    ∃ found, h.findDependantBackups target = some found ∧ found.Nodup ∧
      ∀ o, o ∈ found ↔ Relation.ReflTransGen h.IncrementOf target o := by
  obtain ⟨found, hfound, hnodup⟩ := (forest hnames).workQueue_ends hcycle htarget
  refine ⟨found, hfound, hnodup, fun o => ?_⟩
  rw [mem_workQueue_iff hfound]
  constructor
  · rintro ⟨q, hq, hreach⟩
    rwa [mem_singleton.mp hq] at hreach
  · exact fun hreach => ⟨target, mem_singleton_self _, hreach⟩

end DeleteHandler

end WalG.Delete
