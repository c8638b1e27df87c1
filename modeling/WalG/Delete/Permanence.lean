import WalG.Delete.Dependants
import WalG.Delete.IncrementChain

/-! # Permanent backups under deletion

The objects of a permanent backup and its segments are protected.
-/
namespace WalG.Delete
open Foundation Wal List

namespace PgStorage

variable {w : WalSize} (s : PgStorage w)

/-- An object of a permanent backup, or one of its segments. -/
def Protected (o : Text) : Prop :=
  ∃ n ∈ s.names, s.permanent n = true ∧
    ((∃ rest, PgBackupName.Ends rest ∧ o = baseBackupPath ++ (n.text ++ rest)) ∨
      ∃ no extension, newWalSegmentNo w (lsnPred (s.metadata n).startLsn) ≤ no ∧
        no ≤ newWalSegmentNo w (lsnPred (s.metadata n).finishLsn) ∧
        o = walPath ++ (formatWALFileName w n.start.timeline no ++ extension))

/-- `n` is one of the increments made from `m`. -/
def Increment (m n : PgBackupName w) : Prop := n ∈ s.names ∧ s.Parent m n

def baseName (n : PgBackupName w) : Text :=
  ((s.increment n).map IncrementInfo.incrementFullName).getD []

/-- The backups over the target's full backup. -/
def Related (target n : PgBackupName w) : Prop :=
  if s.increment target = none then target.text = n.text ∨ target.text = s.baseName n
  else s.baseName target = n.text ∨ s.baseName target = s.baseName n

/-- What the command with a target selects: the backups over one full backup, or
the target, its increments, their increments and so on. The search for these does
not end on a backup that is below itself. -/
def Selected (findFull : Bool) (target n : PgBackupName w) : Prop :=
  if findFull then s.Related target n
  else ¬ Relation.TransGen s.Increment target target ∧ Relation.ReflTransGen s.Increment target n

variable {s} {byTime : Bool} {m n target : PgBackupName w} {objects deleted : List Text}

theorem segmentNo_div_lt {lsn no : ℕ} (h : no ≤ newWalSegmentNo w (lsnPred lsn)) :
    no / w.xLogSegmentsPerXLogID < 2 ^ 32 :=
  (Nat.div_le_div_right h).trans_lt (newWalSegmentNo_div_lt w (Nat.mod_lt _ (by decide)))

theorem mem_permanentWals (hn : n ∈ s.names) (hp : s.permanent n = true) {no : ℕ}
    (hstart : newWalSegmentNo w (lsnPred (s.metadata n).startLsn) ≤ no)
    (hfinish : no ≤ newWalSegmentNo w (lsnPred (s.metadata n).finishLsn)) :
    formatWALFileName w n.start.timeline no ∈ s.permanentWals := by
  rw [permanentWals, mem_flatMap]
  refine ⟨n, mem_filter.mpr ⟨hn, hp⟩, mem_map_of_mem ?_⟩
  rw [mem_range'_1]
  omega

theorem Protected.isPermanent {o : Text} (h : s.Protected o) : s.isPermanent o = .ok true := by
  obtain ⟨n, hn, hp, ⟨rest, hrest, rfl⟩ | ⟨no, extension, hstart, hfinish, rfl⟩⟩ := h
  · rw [isPermanent_object hn hrest, hp]
  · have hmem := mem_permanentWals hn hp hstart hfinish
    have hwal := isPermanent_wal (· ∈ s.permanentBackups) (· ∈ s.permanentWals)
      (⟨n.start.timeline, no, n.start.timeline_lt, segmentNo_div_lt hfinish⟩ : WalSegment w) extension
    rw [WalSegment.filename] at hwal
    rw [PgStorage.isPermanent, hwal, decide_eq_true hmem]

theorem run_before_spares {sort : SliceSort BackupObject} {command : DeleteCommand}
    (hcommand : ∀ findFull targetName, command ≠ .target findFull targetName)
    (h : (s.handler byTime).run sort objects command = some (.ok deleted)) : ∀ o ∈ deleted, ¬ s.Protected o := by
  intro o ho hprotected
  rcases (run_ok_iff hcommand).mp h with ⟨-, rfl⟩ | ⟨n, -, hdeleted⟩
  · cases ho
  · have hfalse := ((mem_deleteBeforeTarget hdeleted).2 o).mp ho
    rw [hprotected.isPermanent] at hfalse
    cases hfalse.2.2

theorem mem_incrementsByBackup (hm : m ∈ s.names) {o : BackupObject} :
    o ∈ (s.handler byTime).incrementsByBackup m.text ↔ ∃ n, s.Increment m n ∧ s.object byTime n = o := by
  rw [DeleteHandler.incrementsByBackup, mem_filter, handler, mem_map]
  constructor
  · rintro ⟨⟨n, hn, rfl⟩, hincrement⟩
    refine ⟨n, ⟨hn, hm, ?_⟩, rfl⟩
    cases hi : s.increment n with
    | none => simp [object, hi] at hincrement
    | some info => simpa [object, hi] using hincrement
  · rintro ⟨n, ⟨hn, -, hparent⟩, rfl⟩
    refine ⟨⟨n, hn, rfl⟩, ?_⟩
    cases hi : s.increment n with
    | none => simp [hi] at hparent
    | some info => simpa [object, hi] using hparent

theorem mem_of_reflTransGen (hm : m ∈ s.names) (h : Relation.ReflTransGen s.Increment m n) : n ∈ s.names := by
  rcases h.cases_tail with rfl | ⟨_, _, hlast⟩
  · exact hm
  · exact hlast.1

/-- The increments of a handler's backups, as the search for dependants sees them. -/
theorem reflTransGen_object (hm : m ∈ s.names) {o : BackupObject} :
    Relation.ReflTransGen (fun x y => y ∈ (s.handler byTime).incrementsByBackup x.backupName)
        (s.object byTime m) o ↔
      ∃ n, Relation.ReflTransGen s.Increment m n ∧ s.object byTime n = o := by
  constructor
  · intro h
    induction h with
    | refl => exact ⟨m, .refl, rfl⟩
    | tail _ hstep ih =>
      obtain ⟨n, hreach, rfl⟩ := ih
      obtain ⟨k, hk, rfl⟩ := (mem_incrementsByBackup (mem_of_reflTransGen hm hreach)).mp hstep
      exact ⟨k, hreach.tail hk, rfl⟩
  · rintro ⟨n, hreach, rfl⟩
    exact hreach.lift (s.object byTime) fun a b hab =>
      (mem_incrementsByBackup hab.2.1).mpr ⟨b, hab, rfl⟩

theorem transGen_object (hm : m ∈ s.names) :
    Relation.TransGen (fun x y => y ∈ (s.handler byTime).incrementsByBackup x.backupName)
        (s.object byTime m) (s.object byTime m) ↔ Relation.TransGen s.Increment m m := by
  constructor
  · intro h
    obtain ⟨o, hreach, hstep⟩ := Relation.TransGen.tail'_iff.mp h
    obtain ⟨n, hbelow, rfl⟩ := (reflTransGen_object hm).mp hreach
    obtain ⟨k, hk, hobject⟩ := (mem_incrementsByBackup (mem_of_reflTransGen hm hbelow)).mp hstep
    rw [s.object_injective byTime hobject] at hk
    exact .tail' hbelow hk
  · exact fun h => h.lift (s.object byTime) fun a b hab =>
      (mem_incrementsByBackup hab.2.1).mpr ⟨b, hab, rfl⟩

theorem backupNames_nodup (s : PgStorage w) (byTime : Bool) :
    ((s.handler byTime).backups.map BackupObject.backupName).Nodup := by
  rw [handler, map_map]
  exact s.names_nodup.map fun _ _ heq => text_injective heq

section Targets

variable {targets : List BackupObject}

theorem handler_isPermanent_of_strip {o : Text} (h : stripLeftmostBackupName o = n.text) :
    (s.handler byTime).isPermanent o = .ok false := by
  change s.isPermanent o = _
  rw [isPermanent, Delete.isPermanent_of_strip _ _ h]

theorem refusePermanent_ok (h : ∀ t ∈ targets, t ∈ (s.handler byTime).backups) :
    (s.handler byTime).refusePermanent targets = .ok () := by
  induction targets with
  | nil => rfl
  | cons t targets ih =>
    rw [forall_mem_cons] at h
    obtain ⟨n, -, rfl⟩ := mem_map.mp h.1
    have hfalse : (s.handler byTime).isPermanent (s.object byTime n).name = .ok false := by
      rw [object, PgBackupName.sentinel]
      exact handler_isPermanent_of_strip (stripLeftmostBackupName_text n (.inl rfl))
    rw [DeleteHandler.refusePermanent, hfalse]
    exact ih h.2

theorem mem_deleteTargets (objects : List Text) (h : ∀ t ∈ targets, t ∈ (s.handler byTime).backups) :
    ∃ deleted, (s.handler byTime).deleteTargets objects targets = .ok deleted ∧
      ∀ o, o ∈ deleted ↔ ∃ t, baseBackupPath ++ t = o ∧ o ∈ objects ∧
        stripLeftmostBackupName t ∈ targets.map BackupObject.backupName := by
  have hfilter : ∀ o, (if stripLeftmostBackupName o ∈ targets.map BackupObject.backupName
      then ((s.handler byTime).isPermanent o).map not else .ok false) =
        .ok (decide (stripLeftmostBackupName o ∈ targets.map BackupObject.backupName)) := by
    intro o
    by_cases hmem : stripLeftmostBackupName o ∈ targets.map BackupObject.backupName
    · obtain ⟨t, ht, hname⟩ := mem_map.mp hmem
      obtain ⟨n, -, rfl⟩ := mem_map.mp (h t ht)
      have hfalse : (s.handler byTime).isPermanent o = .ok false :=
        handler_isPermanent_of_strip (n := n) hname.symm
      rw [if_pos hmem, decide_eq_true hmem, hfalse]
      rfl
    · rw [if_neg hmem, decide_eq_false hmem]
  obtain ⟨deleted, hdeleted⟩ := deleteObjectsWhere_ok
    fun o (_ : o ∈ subFolder baseBackupPath objects) => ⟨_, hfilter o⟩
  refine ⟨deleted.map (baseBackupPath ++ ·), ?_, fun o => ?_⟩
  · rw [DeleteHandler.deleteTargets, refusePermanent_ok h]
    simp only [bind, Except.bind, hdeleted]
    rfl
  · rw [mem_map]
    constructor
    · rintro ⟨t, ht, rfl⟩
      obtain ⟨hmem, htrue⟩ := (mem_deleteObjectsWhere hdeleted t).mp ht
      rw [hfilter, Except.ok.injEq, decide_eq_true_eq] at htrue
      exact ⟨t, rfl, mem_subFolder.mp hmem, htrue⟩
    · rintro ⟨t, rfl, hmem, htrue⟩
      refine ⟨t, (mem_deleteObjectsWhere hdeleted t).mpr ⟨mem_subFolder.mpr hmem, ?_⟩, rfl⟩
      rw [hfilter, decide_eq_true htrue]

end Targets

section RunTarget

theorem mem_findRelatedBackups {o : BackupObject} :
    o ∈ (s.handler byTime).findRelatedBackups (s.object byTime target) ↔
      ∃ n ∈ s.names, s.Related target n ∧ s.object byTime n = o := by
  rw [DeleteHandler.findRelatedBackups, mem_filter, handler, mem_map]
  have hrelated : ∀ n, (if (s.object byTime target).isFullBackup then
      decide ((s.object byTime target).backupName = (s.object byTime n).backupName) ||
        decide ((s.object byTime target).backupName = (s.object byTime n).baseBackupName)
      else decide ((s.object byTime target).baseBackupName = (s.object byTime n).backupName) ||
        decide ((s.object byTime target).baseBackupName = (s.object byTime n).baseBackupName)) = true ↔
      s.Related target n := by
    intro n
    cases hi : s.increment target <;> simp [Related, baseName, object, hi]
  constructor
  · rintro ⟨⟨n, hn, rfl⟩, h⟩
    exact ⟨n, hn, (hrelated n).mp h, rfl⟩
  · rintro ⟨n, hn, h, rfl⟩
    exact ⟨⟨n, hn, rfl⟩, (hrelated n).mpr h⟩

theorem find?_target (byTime : Bool) (htarget : target ∈ s.names) :
    (s.handler byTime).backups.find? (·.backupName = target.text) = some (s.object byTime target) := by
  rw [handler, find?_map]
  exact congrArg (Option.map (s.object byTime)) (find?_text s.names htarget)

theorem findDependantBackups_cycle (byTime : Bool) (htarget : target ∈ s.names)
    (hcycle : Relation.TransGen s.Increment target target) :
    (s.handler byTime).findDependantBackups (s.object byTime target) = none :=
  workQueue_cycle (mem_singleton_self _) ((transGen_object htarget).mpr hcycle)

theorem mem_findDependantBackups (byTime : Bool) (htarget : target ∈ s.names)
    (hcycle : ¬ Relation.TransGen s.Increment target target) :
    ∃ found, (s.handler byTime).findDependantBackups (s.object byTime target) = some found ∧
      ∀ o, o ∈ found ↔ ∃ n, Relation.ReflTransGen s.Increment target n ∧ s.object byTime n = o := by
  obtain ⟨found, hfound, -, hiff⟩ := DeleteHandler.findDependantBackups_eq (s.backupNames_nodup byTime)
    (mt (transGen_object htarget).mp hcycle) (mem_map_of_mem htarget)
  refine ⟨found, hfound, fun o => ?_⟩
  rw [hiff]
  exact reflTransGen_object htarget

theorem mem_deleteTargets_names (objects : List Text) {targets : List BackupObject} {p : PgBackupName w → Prop}
    (htargets : ∀ o, o ∈ targets ↔ ∃ n ∈ s.names, p n ∧ s.object byTime n = o) :
    ∃ deleted, (s.handler byTime).deleteTargets objects targets = .ok deleted ∧
      ∀ o, o ∈ deleted ↔ ∃ t, baseBackupPath ++ t = o ∧ o ∈ objects ∧
        ∃ n ∈ s.names, p n ∧ stripLeftmostBackupName t = n.text := by
  have hmem : ∀ t ∈ targets, t ∈ (s.handler byTime).backups := by
    intro t ht
    obtain ⟨n, hn, -, rfl⟩ := (htargets t).mp ht
    exact mem_map_of_mem hn
  obtain ⟨deleted, hdeleted, hiff⟩ := mem_deleteTargets objects hmem
  have hnames : ∀ t, t ∈ targets.map BackupObject.backupName ↔ ∃ n ∈ s.names, p n ∧ t = n.text := by
    intro t
    rw [mem_map]
    constructor
    · rintro ⟨o, ho, rfl⟩
      obtain ⟨n, hn, hp, rfl⟩ := (htargets o).mp ho
      exact ⟨n, hn, hp, rfl⟩
    · rintro ⟨n, hn, hp, rfl⟩
      exact ⟨s.object byTime n, (htargets _).mpr ⟨n, hn, hp, rfl⟩, rfl⟩
  refine ⟨deleted, hdeleted, fun o => ?_⟩
  simp only [hiff o, hnames]

theorem mem_run_target (byTime : Bool) (sort : SliceSort BackupObject) (objects : List Text)
    (htarget : target ∈ s.names) (findFull : Bool) :
    (findFull = false ∧ Relation.TransGen s.Increment target target ∧
      (s.handler byTime).run sort objects (.target findFull target.text) = none) ∨
    ∃ deleted, (s.handler byTime).run sort objects (.target findFull target.text) = some (.ok deleted) ∧
      ∀ o, o ∈ deleted ↔ ∃ t, baseBackupPath ++ t = o ∧ o ∈ objects ∧
        ∃ n ∈ s.names, s.Selected findFull target n ∧ stripLeftmostBackupName t = n.text := by
  have hfind := find?_target byTime htarget
  cases findFull with
  | true =>
    obtain ⟨deleted, hdeleted, hiff⟩ := mem_deleteTargets_names (s := s) (p := s.Related target) objects
      fun o => @mem_findRelatedBackups w s byTime target o
    refine .inr ⟨deleted, ?_, by simpa only [Selected, if_true] using hiff⟩
    simp only [DeleteHandler.run, DeleteHandler.handleDeleteTarget, hfind, if_true, hdeleted]
  | false =>
    by_cases hcycle : Relation.TransGen s.Increment target target
    · refine .inl ⟨rfl, hcycle, ?_⟩
      simp [DeleteHandler.run, DeleteHandler.handleDeleteTarget, hfind,
        findDependantBackups_cycle byTime htarget hcycle]
    · obtain ⟨found, hfound, hdependants⟩ := mem_findDependantBackups byTime htarget hcycle
      obtain ⟨deleted, hdeleted, hiff⟩ := mem_deleteTargets_names (s := s)
          (p := Relation.ReflTransGen s.Increment target) objects fun o => by
        rw [hdependants]
        constructor
        · rintro ⟨n, hn, ho⟩
          exact ⟨n, mem_of_reflTransGen htarget hn, hn, ho⟩
        · rintro ⟨n, -, hn, ho⟩
          exact ⟨n, hn, ho⟩
      refine .inr ⟨deleted, ?_, ?_⟩
      · simp [DeleteHandler.run, DeleteHandler.handleDeleteTarget, hfind, hfound, hdeleted]
      · simpa only [Selected, Bool.false_eq_true, if_false, hcycle, not_false_iff, true_and] using hiff

theorem run_target_deletes (byTime : Bool) (sort : SliceSort BackupObject) (htarget : target ∈ s.names)
    (hn : n ∈ s.names) {findFull : Bool} (hselected : s.Selected findFull target n) :
    ∃ deleted, (s.handler byTime).run sort s.storage.objects (.target findFull target.text) =
      some (.ok deleted) ∧ baseBackupPath ++ n.sentinel ∈ deleted := by
  rcases mem_run_target byTime sort s.storage.objects htarget findFull with ⟨rfl, hcycle, -⟩ | ⟨deleted, hrun, hiff⟩
  · exact absurd hcycle hselected.1
  · refine ⟨deleted, hrun, (hiff _).mpr ⟨n.sentinel, rfl, sentinel_mem hn, n, hn, hselected, ?_⟩⟩
    rw [PgBackupName.sentinel, stripLeftmostBackupName_text n (.inl rfl)]

theorem protected_sentinel (hn : n ∈ s.names) (hp : s.permanent n = true) :
    s.Protected (baseBackupPath ++ n.sentinel) :=
  ⟨n, hn, hp, .inl ⟨sentinelSuffix, .inl rfl, rfl⟩⟩

theorem Protected.strip {t : Text} (h : s.Protected (baseBackupPath ++ t)) :
    ∃ n ∈ s.names, s.permanent n = true ∧ stripLeftmostBackupName t = n.text := by
  obtain ⟨n, hn, hp, ⟨rest, hrest, heq⟩ | ⟨no, extension, -, -, heq⟩⟩ := h
  · refine ⟨n, hn, hp, ?_⟩
    rw [append_cancel_left heq, stripLeftmostBackupName_text n hrest]
  · have hhead := congrArg head? heq
    rw [head?_append_of_ne_nil _ (by decide), head?_append_of_ne_nil _ (by decide)] at hhead
    exact absurd hhead (by decide)

end RunTarget

/-- No protected object is deleted, unless a command names a target that takes a
permanent backup with it. -/
theorem run_spares_protected_iff (s : PgStorage w) (byTime : Bool) (sort : SliceSort BackupObject)
    (command : DeleteCommand) :
    (∀ deleted, (s.handler byTime).run sort s.storage.objects command = some (.ok deleted) →
        ∀ o ∈ deleted, ¬ s.Protected o) ↔
      ∀ findFull, ∀ target ∈ s.names, command = .target findFull target.text →
        ∀ n ∈ s.names, s.permanent n = true → ¬ s.Selected findFull target n := by
  constructor
  · rintro hspares findFull target htarget rfl n hn hp hselected
    obtain ⟨deleted, hrun, hmem⟩ := run_target_deletes byTime sort htarget hn hselected
    exact hspares deleted hrun _ hmem (protected_sentinel hn hp)
  · intro hcond deleted hrun o ho hprotected
    by_cases htarget : ∃ findFull targetName, command = .target findFull targetName
    · obtain ⟨findFull, targetName, rfl⟩ := htarget
      by_cases hname : ∃ target ∈ s.names, target.text = targetName
      · obtain ⟨target, htarget, rfl⟩ := hname
        rcases mem_run_target byTime sort s.storage.objects htarget findFull with
          ⟨-, -, hnone⟩ | ⟨deleted', hrun', hiff⟩
        · cases hnone.symm.trans hrun
        · obtain rfl := Except.ok.inj (Option.some.inj (hrun'.symm.trans hrun))
          obtain ⟨t, rfl, -, n, hn, hselected, hstrip⟩ := (hiff o).mp ho
          obtain ⟨m, hm, hp, hstrip'⟩ := hprotected.strip
          rw [text_injective (hstrip.symm.trans hstrip')] at hselected
          exact hcond findFull target htarget rfl m hm hp hselected
      · have hfind : (s.handler byTime).backups.find? (·.backupName = targetName) = none := by
          rw [find?_eq_none]
          intro o ho
          obtain ⟨n, hn, rfl⟩ := mem_map.mp ho
          exact fun heq => hname ⟨n, hn, of_decide_eq_true heq⟩
        simp only [DeleteHandler.run, DeleteHandler.handleDeleteTarget, hfind, Option.some.injEq,
          Except.ok.injEq] at hrun
        rw [← hrun] at ho
        cases ho
    · exact run_before_spares (fun findFull targetName heq => htarget ⟨findFull, targetName, heq⟩) hrun o
        ho hprotected

/-- One full backup that is permanent. -/
def permanentFull : PgStorage .default :=
  ofBackups [fullAt 1] (nodup_singleton _) (fun _ => none) (fun _ => ⟨true, 0, 0, 0⟩) []
    no_others

theorem permanent_deleted_as_target : permanentFull.permanent (fullAt 1) = true ∧
    permanentFull.Protected (baseBackupPath ++ (fullAt 1).sentinel) ∧
    ∃ deleted, (permanentFull.handler false).run (mergeSlice _) permanentFull.storage.objects
        (.target true (fullAt 1).text) = some (.ok deleted) ∧
      baseBackupPath ++ (fullAt 1).sentinel ∈ deleted := by
  have hmem : fullAt 1 ∈ permanentFull.names := mem_singleton_self _
  exact ⟨rfl, protected_sentinel hmem rfl, run_target_deletes false _ hmem hmem (.inl rfl)⟩

end PgStorage

end WalG.Delete
