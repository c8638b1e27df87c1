import WalG.Delete.PgStorage

/-! # Deleting before a target

Every command but the one with explicit targets deletes what is before some full backup and not
permanent, and every full backup is the target of such a command.
-/
namespace WalG.Delete
open Foundation Wal List

section Where

variable {filter : Text → Except DeleteError Bool} {objects deleted : List Text}

/-- Unless the filter panics, just the accepted objects are deleted. -/
theorem mem_deleteObjectsWhere (h : deleteObjectsWhere filter objects = .ok deleted) (o : Text) :
    o ∈ deleted ↔ o ∈ objects ∧ filter o = .ok true := by
  induction objects generalizing deleted with
  | nil =>
    cases h
    simp
  | cons object objects ih =>
    rw [deleteObjectsWhere] at h
    cases hf : filter object with
    | error e =>
      rw [hf] at h
      cases h
    | ok accepted =>
      cases hrest : deleteObjectsWhere filter objects with
      | error e =>
        rw [hf, hrest] at h
        cases h
      | ok rest =>
        rw [hf, hrest] at h
        cases h
        have hrest := ih hrest
        cases accepted with
        | false =>
          rw [if_neg Bool.false_ne_true, hrest, mem_cons]
          constructor
          · exact fun h => ⟨.inr h.1, h.2⟩
          · rintro ⟨rfl | hmem, htrue⟩
            · rw [hf] at htrue
              cases htrue
            · exact ⟨hmem, htrue⟩
        | true =>
          rw [if_pos rfl, mem_cons, hrest, mem_cons]
          constructor
          · rintro (rfl | ⟨hmem, htrue⟩)
            · exact ⟨.inl rfl, hf⟩
            · exact ⟨.inr hmem, htrue⟩
          · rintro ⟨rfl | hmem, htrue⟩
            · exact .inl rfl
            · exact .inr ⟨hmem, htrue⟩

theorem deleteObjectsWhere_ok (h : ∀ o ∈ objects, ∃ accepted, filter o = .ok accepted) :
    ∃ deleted, deleteObjectsWhere filter objects = .ok deleted := by
  induction objects with
  | nil => exact ⟨[], rfl⟩
  | cons object objects ih =>
    rw [forall_mem_cons] at h
    obtain ⟨accepted, haccepted⟩ := h.1
    obtain ⟨deleted, hdeleted⟩ := ih h.2
    rw [deleteObjectsWhere, haccepted, hdeleted]
    exact ⟨_, rfl⟩

/-- One object at which the filter panics stops the whole command. -/
theorem deleteObjectsWhere_error {e : DeleteError}
    (honly : ∀ o ∈ objects, ∀ e', filter o = .error e' → e' = e) {o : Text} (ho : o ∈ objects)
    (herror : filter o = .error e) : deleteObjectsWhere filter objects = .error e := by
  induction objects with
  | nil => cases ho
  | cons object objects ih =>
    rw [forall_mem_cons] at honly
    rw [deleteObjectsWhere]
    cases hf : filter object with
    | error e' =>
      rw [honly.1 e' hf]
      rfl
    | ok accepted =>
      have hrest : o ∈ objects := by
        rcases mem_cons.mp ho with rfl | ho
        · cases hf.symm.trans herror
        · exact ho
      rw [ih honly.2 hrest]
      rfl

theorem DeleteHandler.mem_deleteBeforeTarget {h : DeleteHandler} {target : BackupObject}
    (hdeleted : h.deleteBeforeTarget objects target = .ok deleted) :
    target.isFullBackup = true ∧ ∀ o, o ∈ deleted ↔
      o ∈ objects ∧ h.less o target.name = true ∧ h.isPermanent o = .ok false := by
  rw [deleteBeforeTarget] at hdeleted
  split_ifs at hdeleted with hfull
  refine ⟨by simpa using hfull, fun o => ?_⟩
  rw [mem_deleteObjectsWhere hdeleted o]
  cases h.less o target.name with
  | false => simp
  | true => cases hp : h.isPermanent o <;> simp [Except.map]

end Where

section NoPanic

theorem find_append_ne_none {t : Text} (h : startsWithSegment t = true) (u : Text) :
    findTimelineAndLogSegNo (u ++ t) ≠ none := by
  induction u with
  | nil =>
    cases t with
    | nil => exact absurd h (by decide)
    | cons c t => simp [findTimelineAndLogSegNo, h]
  | cons c u ih =>
    rw [cons_append, findTimelineAndLogSegNo]
    split_ifs
    · exact Option.some_ne_none _
    · exact ih

/-- An object with a backup name has a segment name in it. -/
theorem find_ne_none_of_fetchPgBackupName {o : Text} (h : fetchPgBackupName o ≠ []) :
    findTimelineAndLogSegNo o ≠ none := by
  induction o with
  | nil => exact absurd rfl h
  | cons c o ih =>
    rw [fetchPgBackupName] at h
    cases hmatch : matchPgBackupName (c :: o) with
    | none =>
      rw [hmatch] at h
      exact fun hnone => ih h (by
        rw [findTimelineAndLogSegNo] at hnone
        split_ifs at hnone
        exact hnone)
    | some name =>
      have hsegment : startsWithSegment ((c :: o).drop 5) = true := by
        rw [matchPgBackupName] at hmatch
        split_ifs at hmatch with hcond
        · exact hcond.2
        · exact hcond.2
      have hsplit := find_append_ne_none hsegment ((c :: o).take 5)
      rwa [take_append_drop] at hsplit

theorem length_of_find {o : Text} (h : findTimelineAndLogSegNo o ≠ none) : 24 ≤ o.length := by
  induction o with
  | nil => exact absurd rfl h
  | cons c o ih =>
    rw [findTimelineAndLogSegNo] at h
    split_ifs at h with hstart
    · rw [startsWithSegment, decide_eq_true_eq, length_take] at hstart
      omega
    · rw [length_cons]
      exact Nat.le_succ_of_le (ih h)

/-- The permanence test has enough characters to cut when a segment name is in the object. -/
theorem isPermanent_ok (permanentBackups permanentWals : Text → Bool) {o : Text}
    (h : findTimelineAndLogSegNo o ≠ none) :
    ∃ permanent, isPermanent permanentBackups permanentWals o = .ok permanent := by
  have hlen := length_of_find h
  have hwal : walPath.length = 8 := rfl
  have hbase : baseBackupPath.length = 16 := rfl
  rw [isPermanent, if_neg (by omega)]
  split_ifs with htake hshort
  · have ho : o = walPath ++ o.drop 8 := by
      conv_lhs => rw [← take_append_drop 8 o]
      rw [← htake, hwal]
    rw [ho, findTimelineAndLogSegNo_walPath] at h
    have hrest := length_of_find h
    rw [length_drop] at hrest
    omega
  · exact ⟨_, rfl⟩
  · omega
  · exact ⟨_, rfl⟩
  · exact ⟨_, rfl⟩

end NoPanic

section Choice

variable {σ : Type} {isTarget : σ → BackupObject → Bool × σ} {state : σ} {objects : List BackupObject}
  {h : DeleteHandler} {sort : SliceSort BackupObject} {compare : Text → Text → Bool} {o : BackupObject}

theorem choose_mem (h : choose isTarget state objects = some o) : o ∈ objects := by
  induction objects generalizing state with
  | nil => cases h
  | cons object objects ih =>
    rw [choose] at h
    split_ifs at h
    · rw [Option.some.inj h]
      exact mem_cons_self
    · exact mem_cons_of_mem _ (ih h)

theorem findTarget_mem (h : (findTarget sort compare isTarget state objects).1 = some o) : o ∈ objects :=
  (sort.perm _ _).mem_iff.mp (choose_mem h)

theorem mem_findTarget_snd : o ∈ (findTarget sort compare isTarget state objects).2 ↔ o ∈ objects :=
  (sort.perm _ _).mem_iff

theorem findTargetBeforeName_mem {name : Text} {modifier : DeleteModifier} {target : BackupObject}
    (ht : h.findTargetBeforeName sort name modifier = .ok target) : target ∈ h.backups := by
  rw [DeleteHandler.findTargetBeforeName] at ht
  cases hc : getBeforeChoiceFunc name modifier with
  | none =>
    rw [hc] at ht
    cases ht
  | some choiceFunc =>
    cases hf : (findTarget sort h.greater choiceFunc false h.backups).1 with
    | none => simp [hc, hf] at ht
    | some o =>
      simp only [hc, hf, Except.ok.injEq] at ht
      exact ht ▸ findTarget_mem hf

theorem findTargetBeforeTime_mem {timeLine : ℤ} {modifier : DeleteModifier} {target : BackupObject}
    (ht : h.findTargetBeforeTime sort timeLine modifier = .ok (some target)) : target ∈ h.backups := by
  rw [DeleteHandler.findTargetBeforeTime] at ht
  rcases hf : findTarget sort h.less (fun _ object => (decide (timeLine ≤ object.backupTime), ())) ()
    h.backups with ⟨_ | potentialTarget, backups⟩
  · simp [hf] at ht
  · simp only [hf] at ht
    cases hn : { h with backups := backups }.findTargetBeforeName sort potentialTarget.name modifier with
    | error e =>
      rw [hn] at ht
      cases ht
    | ok o =>
      rw [hn] at ht
      obtain rfl := Option.some.inj (Except.ok.inj ht)
      have hmem : o ∈ (findTarget sort h.less
          (fun _ object => (decide (timeLine ≤ object.backupTime), ())) () h.backups).2 := by
        rw [hf]
        exact findTargetBeforeName_mem hn
      exact mem_findTarget_snd.mp hmem

section RetainAfter

variable {retentionCount : ℕ} {name : Text} {timeLine : ℤ} {modifier : DeleteModifier} {target : BackupObject}

theorem findTargetRetainAfterName_cases
    (ht : h.findTargetRetainAfterName sort retentionCount name modifier = .ok (some target)) :
    (findTarget sort h.greater (getRetainChoiceFunc retentionCount modifier) 0 h.backups).1 = some target ∨
      (findTarget sort h.less (choiceFuncAfterName name modifier) false (findTarget sort h.greater
        (getRetainChoiceFunc retentionCount modifier) 0 h.backups).2).1 = some target := by
  simp only [DeleteHandler.findTargetRetainAfterName] at ht
  rcases hf1 : findTarget sort h.greater (getRetainChoiceFunc retentionCount modifier) 0 h.backups with
    ⟨target1, backups⟩
  rw [hf1] at ht
  rcases hf2 : findTarget sort h.less (choiceFuncAfterName name modifier) false backups with ⟨target2, bs⟩
  rw [hf2] at ht
  cases target1 with
  | none => cases ht
  | some target1 =>
    cases target2 with
    | none => cases ht
    | some target2 =>
      cases ht
      split_ifs
      · exact .inl rfl
      · exact .inr rfl

theorem findTargetRetainAfterTime_cases
    (ht : h.findTargetRetainAfterTime sort retentionCount timeLine modifier = some target) :
    (findTarget sort h.greater (getRetainChoiceFunc retentionCount modifier) 0 h.backups).1 = some target ∨
      (findTarget sort h.less (choiceFuncAfter timeLine modifier) () (findTarget sort h.greater
        (getRetainChoiceFunc retentionCount modifier) 0 h.backups).2).1 = some target := by
  simp only [DeleteHandler.findTargetRetainAfterTime] at ht
  rcases hf1 : findTarget sort h.greater (getRetainChoiceFunc retentionCount modifier) 0 h.backups with
    ⟨target1, backups⟩
  rw [hf1] at ht
  rcases hf2 : findTarget sort h.less (choiceFuncAfter timeLine modifier) () backups with ⟨target2, bs⟩
  rw [hf2] at ht
  cases target1 with
  | none => exact .inr ht
  | some target1 =>
    cases target2 with
    | none => exact .inl ht
    | some target2 =>
      cases ht
      split_ifs
      · exact .inl rfl
      · exact .inr rfl

end RetainAfter

/-- Whatever the command, the target is one of the backups. -/
theorem findBeforeTarget_mem {command : DeleteCommand} {target : BackupObject}
    (ht : h.findBeforeTarget sort command = .ok (some target)) : target ∈ h.backups := by
  have hmap : ∀ {r : Except DeleteError BackupObject}, r.map some = .ok (some target) →
      r = .ok target := by
    intro r hr
    cases r with
    | error e => cases hr
    | ok o => rw [Option.some.inj (Except.ok.inj hr)]
  cases command with
  | before modifier point =>
    cases point with
    | time timeLine => exact findTargetBeforeTime_mem ht
    | name start => exact findTargetBeforeName_mem (hmap ht)
  | retain modifier retentionCount =>
    have hr := hmap ht
    rw [DeleteHandler.findTargetRetain] at hr
    cases hf : (findTarget sort h.greater (getRetainChoiceFunc retentionCount modifier) 0 h.backups).1 with
    | none => simp [hf] at hr
    | some o =>
      simp only [hf, Except.ok.injEq] at hr
      exact hr ▸ findTarget_mem hf
  | retainAfter modifier retentionCount point =>
    cases point with
    | time timeLine =>
      rcases findTargetRetainAfterTime_cases (Except.ok.inj ht) with hf | hf
      · exact findTarget_mem hf
      · exact mem_findTarget_snd.mp (findTarget_mem hf)
    | name start =>
      rcases findTargetRetainAfterName_cases ht with hf | hf
      · exact findTarget_mem hf
      · exact mem_findTarget_snd.mp (findTarget_mem hf)
  | target findFull targetName => cases ht

end Choice

namespace PgStorage

variable {w : WalSize} (s : PgStorage w) (byTime : Bool)

/-- Objects without a segment name are before no target, so none of them reaches the test. -/
theorem find_of_less {o p : Text} (h : s.less byTime o p = true) : findTimelineAndLogSegNo o ≠ none := by
  have hfetch : tryFetchTimelineAndLogSegNo w o ≠ none → findTimelineAndLogSegNo o ≠ none := by
    intro hsome hnone
    rw [tryFetchTimelineAndLogSegNo, hnone] at hsome
    exact hsome rfl
  cases byTime with
  | false =>
    simp only [less, Bool.false_eq_true, if_false, postgresTimelineAndSegmentNoLess] at h
    exact hfetch fun hnone => by simp [hnone] at h
  | true =>
    simp only [less, if_true, makeLessFunc] at h
    by_cases hname : fetchPgBackupName o = []
    · rw [if_pos hname, postgresSegmentNoLess] at h
      exact hfetch fun hnone => by simp [hnone] at h
    · exact find_ne_none_of_fetchPgBackupName hname

variable {s byTime}
  {n : PgBackupName w} {sort : SliceSort BackupObject} {command : DeleteCommand}

theorem mem_deleteBeforeTarget {objects deleted : List Text}
    (h : (s.handler byTime).deleteBeforeTarget objects (s.object byTime n) = .ok deleted) :
    s.increment n = none ∧ ∀ o, o ∈ deleted ↔
      o ∈ objects ∧ s.less byTime o n.sentinel = true ∧ s.isPermanent o = .ok false := by
  obtain ⟨hfull, hiff⟩ := DeleteHandler.mem_deleteBeforeTarget h
  exact ⟨Option.isNone_iff_eq_none.mp hfull, hiff⟩

theorem deleteBeforeTarget_ok (s : PgStorage w) (byTime : Bool) (hfull : s.increment n = none) (objects : List Text) :
    ∃ deleted, (s.handler byTime).deleteBeforeTarget objects (s.object byTime n) = .ok deleted := by
  have hn : (s.object byTime n).isFullBackup = true := by simp [object, hfull]
  rw [DeleteHandler.deleteBeforeTarget, hn, Bool.not_true, if_neg Bool.false_ne_true]
  refine deleteObjectsWhere_ok fun o _ => ?_
  cases hless : (s.handler byTime).less o (s.object byTime n).name with
  | false => exact ⟨false, rfl⟩
  | true =>
    obtain ⟨permanent, hpermanent⟩ := isPermanent_ok (· ∈ s.permanentBackups) (· ∈ s.permanentWals)
      (s.find_of_less byTime hless)
    refine ⟨!permanent, ?_⟩
    change (s.isPermanent o).map not = _
    rw [isPermanent, hpermanent]
    rfl

/-- The backup that a command finds to delete before. -/
def Selects (s : PgStorage w) (byTime : Bool) (sort : SliceSort BackupObject) (command : DeleteCommand)
    (target : PgBackupName w) : Prop :=
  (s.handler byTime).findBeforeTarget sort command = .ok (some (s.object byTime target))

theorem Selects.mem {target : PgBackupName w} (h : s.Selects byTime sort command target) : target ∈ s.names :=
  (mem_map_of_injective (s.object_injective byTime)).mp (findBeforeTarget_mem h)

/-- A command without targets deletes nothing or what is before the backup it selects. -/
theorem run_ok_iff (hcommand : ∀ findFull targetName, command ≠ .target findFull targetName)
    {objects deleted : List Text} :
    (s.handler byTime).run sort objects command = some (.ok deleted) ↔
      (s.handler byTime).findBeforeTarget sort command = .ok none ∧ deleted = [] ∨
        ∃ n, s.Selects byTime sort command n ∧
          (s.handler byTime).deleteBeforeTarget objects (s.object byTime n) = .ok deleted := by
  have hrun : (s.handler byTime).run sort objects command =
      some (((s.handler byTime).findBeforeTarget sort command).bind fun target =>
        target.elim (.ok []) ((s.handler byTime).deleteBeforeTarget objects)) := by
    cases command with
    | target findFull targetName => exact absurd rfl (hcommand findFull targetName)
    | _ =>
      simp only [DeleteHandler.run]
      rcases (s.handler byTime).findBeforeTarget sort _ with e | _ | target <;> rfl
  rw [hrun, Option.some.injEq]
  simp only [Selects]
  cases ht : (s.handler byTime).findBeforeTarget sort command with
  | error e => simp [Except.bind]
  | ok target =>
    cases target with
    | none => simp [Except.bind, eq_comm]
    | some target =>
      obtain ⟨n, -, rfl⟩ := mem_map.mp (findBeforeTarget_mem ht)
      simp [Except.bind, (s.object_injective byTime).eq_iff]

theorem choose_unique {p : BackupObject → Bool} {l : List BackupObject} {o : BackupObject}
    (ho : o ∈ l) (hp : p o = true) (hunique : ∀ o' ∈ l, p o' = true → o' = o) :
    choose (fun met object => (p object, met)) false l = some o := by
  induction l with
  | nil => cases ho
  | cons object l ih =>
    rw [choose]
    rw [forall_mem_cons] at hunique
    cases hobject : p object with
    | true => rw [if_pos rfl, hunique.1 hobject]
    | false =>
      rw [if_neg Bool.false_ne_true]
      rcases mem_cons.mp ho with rfl | ho
      · cases hp.symm.trans hobject
      · exact ih ho hunique.2

/-- Every backup is selected by the command with its name. -/
theorem selects_beforeName (s : PgStorage w) (byTime : Bool) (hn : n ∈ s.names)
    (sort : SliceSort BackupObject) : s.Selects byTime sort (.before .noDelete (.name n.sentinel)) n := by
  have hperm := sort.perm (fun a b => (s.handler byTime).greater a.name b.name) (s.handler byTime).backups
  have hchoose : (findTarget sort (s.handler byTime).greater
      (fun meetName object => (n.sentinel.isPrefixOf object.name, meetName)) false
      (s.handler byTime).backups).1 = some (s.object byTime n) := by
    refine choose_unique (hperm.mem_iff.mpr (mem_map_of_mem hn)) ?_ fun o ho hpre => ?_
    · exact isPrefixOf_iff_prefix.mpr prefix_rfl
    · obtain ⟨m, -, rfl⟩ := mem_map.mp (hperm.mem_iff.mp ho)
      rw [sentinel_isPrefix (List.isPrefixOf_iff_prefix.mp hpre)]
  have htarget : (s.handler byTime).findTargetBeforeName sort n.sentinel .noDelete =
      .ok (s.object byTime n) := by
    simp only [DeleteHandler.findTargetBeforeName, getBeforeChoiceFunc, hchoose]
  rw [Selects, DeleteHandler.findBeforeTarget, htarget]
  rfl

end PgStorage

end WalG.Delete
