import WalG.Delete.Dependants
import WalG.Mark.Lineage

/-! # The backups related to a target

The related backups are found by the name of the full backup that the sentinels tell.
-/
namespace WalG.Delete
open Foundation List

/-- The full backup at the root of a chain. -/
def DeleteHandler.RootOf (h : DeleteHandler) (root target : BackupObject) : Prop :=
  root ∈ h.backups ∧ root.isFullBackup = true ∧ Relation.ReflTransGen h.IncrementOf root target

/-- The name of the full backup of a backup's chain, as the sentinels tell it. -/
def BackupObject.rootName (o : BackupObject) : Text := if o.isFullBackup then o.backupName else o.baseBackupName

/-- What the sentinel of a backup tells a handler. -/
structure Told where
  backupName : Text
  isFullBackup : Bool
  baseBackupName : Text
  incrementFromName : Text

def BackupObject.told (o : BackupObject) : Told :=
  ⟨o.backupName, o.isFullBackup, o.baseBackupName, o.incrementFromName⟩

def toldOf (b : Mark.BackupEntry) : Told where
  backupName := b.name
  isFullBackup := b.increment.isNone
  baseBackupName := (b.increment.map Mark.IncrementDetails.incrementFullName).getD []
  incrementFromName := (b.increment.map Mark.IncrementDetails.incrementFrom).getD []

/-- The handler has the backups of a catalog, in any order. -/
def Lists (h : DeleteHandler) (catalog : List Mark.BackupEntry) : Prop :=
  (h.backups.map BackupObject.told).Perm (catalog.map toldOf)

/-- What the sentinels of a catalog of pushes have in common. -/
structure Pushed (h : DeleteHandler) : Prop where
  names_nodup : (h.backups.map BackupObject.backupName).Nodup
  name_ne_nil : ∀ o ∈ h.backups, o.backupName ≠ []
  full : ∀ o ∈ h.backups, o.isFullBackup = true → o.baseBackupName = []
  base : ∀ o ∈ h.backups, o.isFullBackup = false →
    ∃ p ∈ h.backups, p.backupName = o.incrementFromName ∧ p.rootName = o.baseBackupName
  wellFounded : WellFounded h.IncrementOf

section Catalog

variable {h : DeleteHandler} {catalog : List Mark.BackupEntry}

theorem rootName_of_told {o : BackupObject} {b : Mark.BackupEntry} (htold : o.told = toldOf b) :
    o.rootName = b.rootName := by
  obtain ⟨hname, hfull, hbase, -⟩ := Told.mk.inj htold
  rw [BackupObject.rootName, Mark.BackupEntry.rootName, hname, hfull, hbase]
  cases b.increment <;> rfl

theorem details_of_told {o : BackupObject} {b : Mark.BackupEntry} (htold : o.told = toldOf b)
    (hfull : o.isFullBackup = false) : ∃ details, b.increment = some details ∧
      o.baseBackupName = details.incrementFullName ∧ o.incrementFromName = details.incrementFrom := by
  obtain ⟨-, hfull', hbase, hfrom⟩ := Told.mk.inj htold
  cases hdetails : b.increment with
  | none =>
    rw [hfull, hdetails] at hfull'
    cases hfull'
  | some details =>
    rw [hdetails] at hbase hfrom
    exact ⟨details, rfl, hbase, hfrom⟩

theorem pushed_of_reachable (hreachable : Mark.Reachable catalog) (hlists : Lists h catalog) : Pushed h := by
  have hlineage := Mark.Reachable.lineage hreachable
  have hentry : ∀ o ∈ h.backups, ∃ b ∈ catalog, o.told = toldOf b := by
    intro o ho
    obtain ⟨b, hb, heq⟩ := mem_map.mp (hlists.mem_iff.mp (mem_map_of_mem ho))
    exact ⟨b, hb, heq.symm⟩
  constructor
  · have hperm := hlists.map Told.backupName
    rw [map_map, map_map] at hperm
    exact hperm.nodup_iff.mpr hlineage.names_nodup
  · intro o ho
    obtain ⟨b, hb, htold⟩ := hentry o ho
    rw [show o.backupName = b.name from congrArg Told.backupName htold]
    exact hlineage.name_ne_nil hb
  · intro o ho hfull
    obtain ⟨b, hb, htold⟩ := hentry o ho
    obtain ⟨-, hfull', hbase, -⟩ := Told.mk.inj htold
    rw [hfull] at hfull'
    rw [hbase, Option.isNone_iff_eq_none.mp hfull'.symm]
    rfl
  · intro o ho hfull
    obtain ⟨b, hb, htold⟩ := hentry o ho
    obtain ⟨details, hdetails, hbase, hfrom⟩ := details_of_told htold hfull
    obtain ⟨a, ha, hname, hroot⟩ := hlineage.exists_base hb hdetails
    obtain ⟨p, hp, hptold⟩ := mem_map.mp (hlists.mem_iff.mpr (mem_map_of_mem ha))
    refine ⟨p, hp, ?_, ?_⟩
    · rw [show p.backupName = a.name from congrArg Told.backupName hptold, hname, hfrom]
    · rw [rootName_of_told hptold, hroot, hbase]
  · obtain ⟨rank, hrank⟩ := hlineage.exists_rank
    refine Subrelation.wf (fun {x y} hstep => ?_) (measure fun o : BackupObject => rank o.backupName).wf
    obtain ⟨hy, hfull, hfrom⟩ := DeleteHandler.incrementOf_iff.mp hstep
    obtain ⟨b, hb, htold⟩ := hentry y hy
    obtain ⟨details, hdetails, -, hfrom'⟩ := details_of_told htold hfull
    change rank x.backupName < rank y.backupName
    rw [← hfrom, hfrom', show y.backupName = b.name from congrArg Told.backupName htold]
    exact hrank b hb details hdetails

end Catalog

namespace Pushed

variable {h : DeleteHandler} (hpushed : Pushed h) {x y root target : BackupObject}

include hpushed

theorem not_transGen : ¬ Relation.TransGen h.IncrementOf x x := fun hcycle =>
  hpushed.wellFounded.transGen.irrefl.irrefl x hcycle

theorem rootName_eq (hx : x ∈ h.backups) (hstep : h.IncrementOf x y) : y.rootName = x.rootName := by
  obtain ⟨hy, hfull, hfrom⟩ := DeleteHandler.incrementOf_iff.mp hstep
  obtain ⟨p, hp, hname, hroot⟩ := hpushed.base y hy hfull
  obtain rfl := DeleteHandler.eq_of_backupName_eq hpushed.names_nodup hp hx (hname.trans hfrom)
  rw [hroot, BackupObject.rootName, hfull, if_neg Bool.false_ne_true]

theorem rootName_of_reach (hx : x ∈ h.backups) (hreach : Relation.ReflTransGen h.IncrementOf x y) :
    y ∈ h.backups ∧ y.rootName = x.rootName := by
  induction hreach with
  | refl => exact ⟨hx, rfl⟩
  | tail _ hstep ih =>
    exact ⟨(DeleteHandler.incrementOf_iff.mp hstep).1, (hpushed.rootName_eq ih.1 hstep).trans ih.2⟩

theorem exists_root (htarget : target ∈ h.backups) : ∃ root, h.RootOf root target := by
  induction target using hpushed.wellFounded.induction with
  | _ o ih =>
    cases hfull : o.isFullBackup with
    | true => exact ⟨o, htarget, hfull, .refl⟩
    | false =>
      obtain ⟨p, hp, hname, -⟩ := hpushed.base o htarget hfull
      have hstep : h.IncrementOf p o := DeleteHandler.incrementOf_iff.mpr ⟨htarget, hfull, hname.symm⟩
      obtain ⟨root, hroot, hrootFull, hreach⟩ := ih p hstep hp
      exact ⟨root, hroot, hrootFull, hreach.tail hstep⟩

theorem rootName_of_root (hroot : h.RootOf root target) : target.rootName = root.backupName := by
  obtain ⟨hmem, hfull, hreach⟩ := hroot
  rw [(hpushed.rootName_of_reach hmem hreach).2, BackupObject.rootName, if_pos hfull]

omit hpushed in
theorem mem_findRelatedBackups : x ∈ h.findRelatedBackups target ↔
    x ∈ h.backups ∧ (x.backupName = target.rootName ∨ x.baseBackupName = target.rootName) := by
  rw [DeleteHandler.findRelatedBackups, mem_filter, BackupObject.rootName]
  split_ifs
  · rw [Bool.or_eq_true, decide_eq_true_eq, decide_eq_true_eq, eq_comm, eq_comm (a := target.backupName)]
  · rw [Bool.or_eq_true, decide_eq_true_eq, decide_eq_true_eq, eq_comm, eq_comm (a := target.baseBackupName)]

theorem mem_findRelatedBackups_iff (hroot : h.RootOf root target) :
    x ∈ h.findRelatedBackups target ↔ Relation.ReflTransGen h.IncrementOf root x := by
  rw [mem_findRelatedBackups, hpushed.rootName_of_root hroot]
  constructor
  · rintro ⟨hx, hname | hbase⟩
    · rw [DeleteHandler.eq_of_backupName_eq hpushed.names_nodup hx hroot.1 hname]
    · obtain ⟨root', hroot'⟩ := hpushed.exists_root hx
      have hincrement : x.isFullBackup = false := by
        rw [← Bool.not_eq_true]
        intro hfull
        rw [hpushed.full x hx hfull] at hbase
        exact hpushed.name_ne_nil root hroot.1 hbase.symm
      have hname := hpushed.rootName_of_root hroot'
      rw [BackupObject.rootName, hincrement, if_neg Bool.false_ne_true, hbase] at hname
      rw [DeleteHandler.eq_of_backupName_eq hpushed.names_nodup hroot.1 hroot'.1 hname]
      exact hroot'.2.2
  · intro hreach
    obtain ⟨hx, hname⟩ := hpushed.rootName_of_reach hroot.1 hreach
    refine ⟨hx, ?_⟩
    rw [BackupObject.rootName, BackupObject.rootName, if_pos hroot.2.1] at hname
    split_ifs at hname
    · exact .inl hname
    · exact .inr hname

end Pushed

/-- The search for dependants ends with the target and its descendants, once each; and over the sentinels of
pushes the backups related to a target are the dependants of the root of its chain. -/
theorem findDependantBackups_findRelatedBackups :
    (∀ h : DeleteHandler, (h.backups.map BackupObject.backupName).Nodup →
      (∀ x, ¬ Relation.TransGen h.IncrementOf x x) → ∀ target ∈ h.backups,
        ∃ found, h.findDependantBackups target = some found ∧ found.Nodup ∧
          ∀ o, o ∈ found ↔ Relation.ReflTransGen h.IncrementOf target o) ∧
    ∀ catalog, Mark.Reachable catalog → ∀ h, Lists h catalog → ∀ target ∈ h.backups,
      (∃ root, h.RootOf root target) ∧ ∀ root, h.RootOf root target →
        ∃ found, h.findDependantBackups root = some found ∧ ∀ o, o ∈ h.findRelatedBackups target ↔ o ∈ found := by
  constructor
  · intro h hnames hacyclic target htarget
    exact DeleteHandler.findDependantBackups_eq hnames (hacyclic target) htarget
  · intro catalog hreachable h hlists target htarget
    have hpushed := pushed_of_reachable hreachable hlists
    refine ⟨hpushed.exists_root htarget, fun root hroot => ?_⟩
    obtain ⟨found, hfound, -, hiff⟩ :=
      DeleteHandler.findDependantBackups_eq hpushed.names_nodup hpushed.not_transGen hroot.1
    refine ⟨found, hfound, fun o => ?_⟩
    rw [hpushed.mem_findRelatedBackups_iff hroot, hiff]

def fullPush : Mark.PushArguments := ⟨false, true, 0, false, none, "000000010000000000000002".toList, 32, 40⟩

def deltaPush : Mark.PushArguments :=
  ⟨false, false, 3, false, some "base_000000010000000000000002".toList, "000000010000000000000004".toList, 64, 72⟩

/-- A full backup and a delta over it. -/
def fullAndDelta : List Mark.BackupEntry :=
  let full := Mark.newBackupEntry fullPush none
  [Mark.newBackupEntry deltaPush (some (full, 1)), full]

theorem reachable_fullAndDelta : Mark.Reachable fullAndDelta := by
  have hfull : Mark.Step [] [Mark.newBackupEntry fullPush none] := by
    have hbase : Mark.pushBase [] fullPush = .ok none := rfl
    exact .push hbase rfl (by simp)
  have hdelta : Mark.Step [Mark.newBackupEntry fullPush none] fullAndDelta := by
    have hbase : Mark.pushBase [Mark.newBackupEntry fullPush none] deltaPush =
        .ok (some (Mark.newBackupEntry fullPush none, 1)) := by decide +kernel
    exact .push hbase rfl (by decide +kernel)
  exact (Relation.ReflTransGen.single hfull).tail hdelta

/-- The handler of the two backups. -/
def fullAndDeltaHandler : DeleteHandler where
  backups := fullAndDelta.map fun b =>
    ⟨b.name ++ sentinelSuffix, b.name, 0, (toldOf b).isFullBackup, (toldOf b).baseBackupName,
      (toldOf b).incrementFromName⟩
  less _ _ := false
  isPermanent _ := .ok false

theorem findRelatedBackups_fullAndDelta : ∃ target ∈ fullAndDeltaHandler.backups, target.isFullBackup = false ∧
      (∃ root, fullAndDeltaHandler.RootOf root target) ∧ ∀ root, fullAndDeltaHandler.RootOf root target →
        ∃ found, fullAndDeltaHandler.findDependantBackups root = some found ∧
          ∀ o, o ∈ fullAndDeltaHandler.findRelatedBackups target ↔ o ∈ found := by
  have hlists : Lists fullAndDeltaHandler fullAndDelta := .refl _
  refine ⟨_, mem_cons_self, rfl, ?_⟩
  exact findDependantBackups_findRelatedBackups.2 fullAndDelta reachable_fullAndDelta _ hlists _ mem_cons_self

end WalG.Delete
