import WalG.MySQL.DeleteHandler

/-! # Permanent backups of a MySQL storage

The permanence test panics on names that are too short to be cut, and in the folder of the backups,
where the command for one target sees the objects, it recognises nothing.
-/
namespace WalG.MySQL
open Foundation Delete List

/-- The result of a deletion: the test did not panic and nothing bad was handed over. -/
def Spares (bad : Text → Prop) (result : Except DeleteError (List Text)) : Prop :=
  result ≠ .error .sliceOutOfRange ∧ ∀ deleted, result = .ok deleted → ∀ o ∈ deleted, ¬ bad o

section Filter

variable {selected : Text → Bool} {permanentBackups : Text → Bool} {objects : List Text} {bad : Text → Prop}

theorem filter_of_testable {o : Text} (h : Testable o) (hsel : selected o = true) :
    (if selected o then (isPermanent o permanentBackups).map not else .ok false) =
      .ok (!(baseBackupPath.isPrefixOf o && permanentBackups ((o.drop baseBackupPath.length).take 23))) := by
  rw [if_pos hsel, isPermanent_of_testable h]
  rfl

theorem filter_of_not_testable {o : Text} (h : ¬ Testable o) (hsel : selected o = true) :
    (if selected o then (isPermanent o permanentBackups).map not else .ok false) =
      .error .sliceOutOfRange := by
  rw [if_pos hsel, isPermanent_of_not_testable h]
  rfl

/-- A deletion with the permanence test spares what is bad exactly if the test can
be made on all selected objects and is positive on the bad ones. -/
theorem spares_iff : Spares bad (deleteObjectsWhere (fun o =>
      if selected o then (isPermanent o permanentBackups).map not else .ok false) objects) ↔
    ∀ o ∈ objects, selected o = true → Testable o ∧ (bad o → baseBackupPath <+: o ∧
      permanentBackups ((o.drop baseBackupPath.length).take 23) = true) := by
  have hok : (∀ o ∈ objects, selected o = true → Testable o) → ∃ deleted, deleteObjectsWhere (fun o =>
      if selected o then (isPermanent o permanentBackups).map not else .ok false) objects = .ok deleted := by
    refine fun htest => deleteObjectsWhere_ok fun o ho => ?_
    by_cases hsel : selected o = true
    · exact ⟨_, filter_of_testable (htest o ho hsel) hsel⟩
    · exact ⟨false, if_neg hsel⟩
  constructor
  · rintro ⟨hpanic, hdeleted⟩
    have htest : ∀ o ∈ objects, selected o = true → Testable o := by
      intro o ho hsel
      by_contra htest
      refine hpanic (deleteObjectsWhere_error (fun o' _ e' herror => ?_) ho (filter_of_not_testable htest hsel))
      by_cases hsel' : selected o' = true
      · by_cases htest' : Testable o'
        · rw [filter_of_testable htest' hsel'] at herror
          cases herror
        · rw [filter_of_not_testable htest' hsel'] at herror
          exact (Except.error.inj herror).symm
      · rw [if_neg hsel'] at herror
        cases herror
    obtain ⟨deleted, hrun⟩ := hok htest
    refine fun o ho hsel => ⟨htest o ho hsel, fun hbad => ?_⟩
    by_contra hfalse
    refine hdeleted deleted hrun o ((mem_deleteObjectsWhere hrun o).mpr ⟨ho, ?_⟩) hbad
    rw [filter_of_testable (htest o ho hsel) hsel]
    rw [← isPrefixOf_iff_prefix, ← Bool.and_eq_true, Bool.not_eq_true] at hfalse
    rw [hfalse]
    rfl
  · intro h
    obtain ⟨deleted, hrun⟩ := hok fun o ho hsel => (h o ho hsel).1
    rw [hrun]
    refine ⟨nofun, fun deleted' heq o ho hbad => ?_⟩
    rw [← Except.ok.inj heq, mem_deleteObjectsWhere hrun o] at ho
    obtain ⟨hmem, htrue⟩ := ho
    by_cases hsel : selected o = true
    · obtain ⟨htest, hpermanent⟩ := h o hmem hsel
      rw [filter_of_testable htest hsel] at htrue
      obtain ⟨hstart, hname⟩ := hpermanent hbad
      rw [List.isPrefixOf_iff_prefix.mpr hstart, hname] at htrue
      cases htrue
    · rw [if_neg hsel] at htrue
      cases htrue

end Filter

section Commands

variable (formatTime : ℤ → Text) (s : Storage) (sort : SliceSort BackupObject)

/-- The command ends, its permanence tests do not panic, and it hands over no object of
a permanent backup. -/
def KeepsPermanent (command : Command) : Prop :=
  ∃ result, run formatTime s sort command = some result ∧
    Spares (fun o => ∃ backupName ∈ permanentObjects s, Belongs backupName o) result

/-- Before a target, every older object has a name that can be cut, and the cut gives
a permanent backup for the objects of permanent backups. A single target is not
permanent and its objects have names that can be cut. -/
def Safe : Command → Prop
  | .target backupName => backupName ∈ s.getBackups → backupName ∉ permanentObjects s ∧
      ∀ name, baseBackupPath ++ name ∈ s.objects → stripLeftmostBackupName name = backupName → Testable name
  | command => ∀ target, findCut formatTime s sort command = .ok (some target) →
      ∀ o ∈ s.objects, olderThan formatTime s o target.name = true → Testable o ∧
        ∀ backupName ∈ permanentObjects s, Belongs backupName o →
          (o.drop baseBackupPath.length).take 23 ∈ permanentObjects s

variable {formatTime s sort} {command : Command} {target : BackupObject}

theorem stripLeftmost_eq_stripRightmost {name : Text} (h : '/' ∉ name) :
    stripLeftmostBackupName name = stripRightmostBackupName name := by
  have htrim : '/' ∉ trimSlashes name := fun hmem =>
    h ((dropWhile_sublist _).subset ((List.rdropWhile_prefix _ _).subset hmem))
  have hall : ∀ c ∈ trimSlashes name, decide (c ≠ '/') = true := fun c hc =>
    decide_eq_true fun heq => htrim (heq ▸ hc)
  rw [stripLeftmostBackupName, stripRightmostBackupName, takeWhile_eq_self_iff.mpr hall,
    rtakeWhile_eq_self_iff.mpr hall]

theorem isPermanent_sentinel {object : Text} (h : object ∈ s.getBackupSentinelObjects)
    (permanentBackups : Text → Bool) : Testable object ∧ isPermanent object permanentBackups = .ok false := by
  obtain ⟨-, hcond⟩ := mem_filter.mp h
  obtain ⟨hslash, hsuffix⟩ := of_decide_eq_true hcond
  have hno : ¬ baseBackupPath <+: object := fun hp => hslash (hp.subset (by decide))
  have hlen := (isSuffixOf_iff_suffix.mp hsuffix).length_le
  have htest : Testable object := ⟨le_trans (by decide) hlen, fun hp => absurd hp hno⟩
  refine ⟨htest, ?_⟩
  rw [isPermanent_of_testable htest, Bool.eq_false_iff.mpr fun hp => hno (List.isPrefixOf_iff_prefix.mp hp),
    Bool.false_and]

theorem isFullBackup_of_mem
    (h : target ∈ (newMySQLDeleteHandler formatTime s).backups) : target.isFullBackup = true := by
  obtain ⟨object, -, rfl⟩ := mem_map.mp h
  rfl

theorem findDependantBackups_eq (h : target ∈ (newMySQLDeleteHandler formatTime s).backups) :
    (newMySQLDeleteHandler formatTime s).findDependantBackups target = some [target] := by
  have hnone : ∀ name, (newMySQLDeleteHandler formatTime s).incrementsByBackup name = [] := by
    intro name
    rw [DeleteHandler.incrementsByBackup, filter_eq_nil_iff]
    intro backup hbackup
    rw [isFullBackup_of_mem hbackup]
    simp
  obtain ⟨n, hn⟩ := Nat.exists_eq_succ_of_ne_zero (length_pos_of_mem h).ne'
  rw [DeleteHandler.findDependantBackups, hn, workQueue, hnone, nil_append, workQueue]
  rfl

theorem spares_map_iff {bad : Text → Prop} {result : Except DeleteError (List Text)} (f : Text → Text) :
    Spares bad (result.map (map f)) ↔ Spares (fun o => bad (f o)) result := by
  cases result with
  | error e =>
    simp only [Spares, Except.map, ne_eq, Except.error.injEq, reduceCtorEq, false_implies, implies_true]
  | ok deleted =>
    simp only [Spares, Except.map, ne_eq, reduceCtorEq, not_false_eq_true, Except.ok.injEq, true_and,
      forall_eq', forall_mem_map]

theorem findTargetBeforeName_error {h : DeleteHandler} {name : Text} {modifier : DeleteModifier} {e : DeleteError}
    (he : h.findTargetBeforeName sort name modifier = .error e) : e ≠ .sliceOutOfRange := by
  rw [DeleteHandler.findTargetBeforeName] at he
  split at he
  · cases he
    decide
  · split at he
    · cases he
      decide
    · cases he

theorem findCut_error {e : DeleteError}
    (he : findCut formatTime s sort command = .error e) : e ≠ .sliceOutOfRange := by
  have hmap : ∀ {r : Except DeleteError BackupObject}, r.map some = .error e → r = .error e := by
    intro r hr
    cases r with
    | error e' => rw [Except.error.inj hr]
    | ok o => cases hr
  cases command with
  | before modifier point =>
    cases point with
    | name name => exact findTargetBeforeName_error (hmap he)
    | time timeLine =>
      change DeleteHandler.findTargetBeforeTime _ sort timeLine modifier = .error e at he
      rw [DeleteHandler.findTargetBeforeTime] at he
      split at he
      · cases he
      · exact findTargetBeforeName_error (hmap he)
  | retain modifier retentionCount =>
    have he : DeleteHandler.findTargetRetain _ sort retentionCount modifier = .error e := hmap he
    rw [DeleteHandler.findTargetRetain] at he
    split at he
    · cases he
      decide
    · cases he
  | target name => cases he

theorem findCut_mem (h : findCut formatTime s sort command = .ok (some target)) :
    target ∈ (newMySQLDeleteHandler formatTime s).backups := by
  cases command with
  | before modifier point => exact @findBeforeTarget_mem _ sort (.before modifier point) _ h
  | retain modifier retentionCount => exact @findBeforeTarget_mem _ sort (.retain modifier retentionCount) _ h
  | target name => cases h

theorem spares_before_iff (hfull : target.isFullBackup = true) :
    Spares (fun o => ∃ backupName ∈ permanentObjects s, Belongs backupName o)
      ({ newMySQLDeleteHandler formatTime s with less := olderThan formatTime s }.deleteBeforeTarget
        s.objects target) ↔
    ∀ o ∈ s.objects, olderThan formatTime s o target.name = true → Testable o ∧
      ∀ backupName ∈ permanentObjects s, Belongs backupName o →
        (o.drop baseBackupPath.length).take 23 ∈ permanentObjects s := by
  rw [DeleteHandler.deleteBeforeTarget, hfull, Bool.not_true, if_neg Bool.false_ne_true]
  change Spares _ (deleteObjectsWhere (fun o => if olderThan formatTime s o target.name then
    (isPermanent o (· ∈ permanentObjects s)).map not else .ok false) s.objects) ↔ _
  rw [spares_iff]
  refine forall₃_congr fun o _ _ => and_congr_right fun _ => ?_
  rw [decide_eq_true_eq]
  constructor
  · exact fun h backupName hp hb => (h ⟨backupName, hp, hb⟩).2
  · rintro h ⟨backupName, hp, name, rfl, hname⟩
    exact ⟨prefix_append _ _, h backupName hp ⟨name, rfl, hname⟩⟩

theorem run_eq_findCut (hcommand : ∀ name, command ≠ .target name) :
    run formatTime s sort command =
      match findCut formatTime s sort command with
      | .error e => some (.error e)
      | .ok none => some (.ok [])
      | .ok (some target) =>
        some ({ newMySQLDeleteHandler formatTime s with less := olderThan formatTime s }.deleteBeforeTarget
          s.objects target) := by
  cases command with
  | before modifier point => rfl
  | retain modifier retentionCount => rfl
  | target name => exact absurd rfl (hcommand name)

theorem safe_eq_findCut (hcommand : ∀ name, command ≠ .target name) :
    Safe formatTime s sort command ↔ ∀ target, findCut formatTime s sort command = .ok (some target) →
      ∀ o ∈ s.objects, olderThan formatTime s o target.name = true → Testable o ∧
        ∀ backupName ∈ permanentObjects s, Belongs backupName o →
          (o.drop baseBackupPath.length).take 23 ∈ permanentObjects s := by
  cases command with
  | before modifier point => exact Iff.rfl
  | retain modifier retentionCount => exact Iff.rfl
  | target name => exact absurd rfl (hcommand name)

theorem keepsPermanent_before_iff (hcommand : ∀ name, command ≠ .target name) :
    KeepsPermanent formatTime s sort command ↔ Safe formatTime s sort command := by
  rw [KeepsPermanent, run_eq_findCut hcommand, safe_eq_findCut hcommand]
  cases hcut : findCut formatTime s sort command with
  | error e =>
    refine iff_of_true ⟨_, rfl, fun herror => ?_, nofun⟩ nofun
    exact findCut_error hcut (Except.error.inj herror)
  | ok cut =>
    cases cut with
    | none =>
      refine iff_of_true ⟨_, rfl, nofun, fun deleted heq o ho => ?_⟩ nofun
      rw [← Except.ok.inj heq] at ho
      cases ho
    | some target =>
      simp only [Option.some.injEq, exists_eq_left', Except.ok.injEq, forall_eq']
      exact spares_before_iff (isFullBackup_of_mem (findCut_mem hcut))

theorem spares_target_iff (htarget : target ∈ (newMySQLDeleteHandler formatTime s).backups) :
    Spares (fun o => ∃ backupName ∈ permanentObjects s, Belongs backupName o)
      ((newMySQLDeleteHandler formatTime s).deleteTargets s.objects [target]) ↔
    target.backupName ∉ permanentObjects s ∧
      ∀ name, baseBackupPath ++ name ∈ s.objects → stripLeftmostBackupName name = target.backupName →
        Testable name := by
  obtain ⟨object, hobject, rfl⟩ := mem_map.mp htarget
  have hslash := (of_decide_eq_true (mem_filter.mp hobject).2).1
  have hstrip : stripLeftmostBackupName object = stripRightmostBackupName object :=
    stripLeftmost_eq_stripRightmost hslash
  have hrefuse : (newMySQLDeleteHandler formatTime s).refusePermanent [newDefaultBackupObject s object] =
      .ok () := by
    have hfalse : (newMySQLDeleteHandler formatTime s).isPermanent object = .ok false :=
      (isPermanent_sentinel hobject (· ∈ permanentObjects s)).2
    rw [DeleteHandler.refusePermanent]
    change ((newMySQLDeleteHandler formatTime s).isPermanent object >>= _) = _
    rw [hfalse]
    rfl
  have hdelete : (newMySQLDeleteHandler formatTime s).deleteTargets s.objects
      [newDefaultBackupObject s object] = (deleteObjectsWhere (fun o =>
        if decide (stripLeftmostBackupName o = stripRightmostBackupName object) then
          (isPermanent o (· ∈ permanentObjects s)).map not else .ok false)
        (subFolder baseBackupPath s.objects)).map (map (baseBackupPath ++ ·)) := by
    rw [DeleteHandler.deleteTargets, hrefuse]
    simp only [map_cons, map_nil, mem_singleton, decide_eq_true_eq]
    rfl
  rw [hdelete, spares_map_iff, spares_iff]
  simp only [decide_eq_true_eq, mem_subFolder]
  constructor
  · intro h
    refine ⟨fun hp => ?_, fun name hname hs => (h name hname hs).1⟩
    have hmem := mem_subFolder.mp (mem_of_mem_filter hobject)
    have hbase := ((h object hmem hstrip).2 ⟨_, hp, object, rfl, hstrip⟩).1
    exact hslash (hbase.subset (by decide))
  · rintro ⟨hp, htest⟩ name hname hs
    refine ⟨htest name hname hs, ?_⟩
    rintro ⟨backupName, hp', name', heq, hname'⟩
    rw [← append_cancel_left heq, hs] at hname'
    rw [← hname'] at hp'
    exact absurd hp' hp

theorem keepsPermanent_target_iff (backupName : Text) :
    KeepsPermanent formatTime s sort (.target backupName) ↔ Safe formatTime s sort (.target backupName) := by
  change (∃ result, (newMySQLDeleteHandler formatTime s).handleDeleteTarget s.objects false backupName =
    some result ∧ _) ↔ (backupName ∈ s.getBackups → _)
  have hnames : s.getBackups = (newMySQLDeleteHandler formatTime s).backups.map BackupObject.backupName := by
    rw [newMySQLDeleteHandler, map_map]
    rfl
  rw [DeleteHandler.handleDeleteTarget]
  cases hfind : (newMySQLDeleteHandler formatTime s).backups.find? (·.backupName = backupName) with
  | none =>
    have hno : backupName ∉ s.getBackups := by
      rw [hnames, mem_map]
      rintro ⟨backup, hbackup, rfl⟩
      simpa using find?_eq_none.mp hfind backup hbackup
    refine iff_of_true ⟨_, rfl, nofun, fun deleted heq o ho => ?_⟩ fun h => absurd h hno
    rw [← Except.ok.inj heq] at ho
    cases ho
  | some target =>
    have htarget := mem_of_find?_eq_some hfind
    have hfound := find?_some hfind
    have hname : target.backupName = backupName := of_decide_eq_true hfound
    have hmem : backupName ∈ s.getBackups := by
      rw [hnames, ← hname]
      exact mem_map_of_mem htarget
    dsimp only
    rw [if_neg Bool.false_ne_true, findDependantBackups_eq htarget, Option.map_some]
    simp only [Option.some.injEq, exists_eq_left', hmem, true_implies]
    rw [spares_target_iff htarget, hname]

/-- A command keeps the permanent backups exactly if it is safe. -/
theorem keepsPermanent_iff_safe (formatTime : ℤ → Text) (s : Storage) (sort : SliceSort BackupObject)
    (command : Command) : KeepsPermanent formatTime s sort command ↔ Safe formatTime s sort command := by
  cases command with
  | before modifier point => exact keepsPermanent_before_iff nofun
  | retain modifier retentionCount => exact keepsPermanent_before_iff nofun
  | target backupName => exact keepsPermanent_target_iff backupName

end Commands

def streamName : Text := "stream_20200101T000000Z".toList

def streamSentinel : Text := streamName ++ sentinelSuffix

/-- One permanent backup, and a note beside the folder of the backups. -/
def notedStorage : Storage where
  objects := ["note".toList, baseBackupPath ++ streamSentinel, baseBackupPath ++ (streamName ++ "/stream.lz4".toList)]
  lastModified _ := 0
  sentinel _ := none
  fetchMeta _ := some ⟨true, 0, 0, 0⟩

/-- The permanent backup is deleted as a target; before it, the note's name makes the
permanence test panic. -/
theorem notedStorage_not_kept : streamName ∈ permanentObjects notedStorage ∧
    run (fun _ => []) notedStorage (mergeSlice _) (.target streamName) =
      some (.ok [baseBackupPath ++ streamSentinel, baseBackupPath ++ (streamName ++ "/stream.lz4".toList)]) ∧
    run (fun _ => []) notedStorage (mergeSlice _) (.before .noDelete (.name streamName)) =
      some (.error .sliceOutOfRange) := by
  generalize mergeSlice _ = sort
  have htarget : (newMySQLDeleteHandler (fun _ => []) notedStorage).handleDeleteTarget notedStorage.objects
      false streamName = some (.ok [baseBackupPath ++ streamSentinel,
        baseBackupPath ++ (streamName ++ "/stream.lz4".toList)]) := by decide +kernel
  refine ⟨by decide +kernel, htarget, ?_⟩
  have hbackups : (newMySQLDeleteHandler (fun _ => []) notedStorage).backups =
      [newDefaultBackupObject notedStorage streamSentinel] := by decide +kernel
  have hsort : ∀ less, sort.sort less [newDefaultBackupObject notedStorage streamSentinel] =
      [newDefaultBackupObject notedStorage streamSentinel] := fun less =>
    perm_singleton.mp (sort.perm less _)
  have hcut : findCut (fun _ => []) notedStorage sort (.before .noDelete (.name streamName)) =
      .ok (some (newDefaultBackupObject notedStorage streamSentinel)) := by
    change (DeleteHandler.findTargetBeforeName _ sort streamName .noDelete).map some = _
    simp only [DeleteHandler.findTargetBeforeName, getBeforeChoiceFunc, findTarget, hbackups, hsort]
    decide +kernel
  rw [run_eq_findCut (by intro _ h; cases h), hcut]
  decide +kernel

end WalG.MySQL
