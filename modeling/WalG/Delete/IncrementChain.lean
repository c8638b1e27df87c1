import WalG.Delete.BeforeTarget

/-! # Increment chains under deletion

A delta backup is only of use with its base, the base of that and so on down to a full backup.
-/
namespace WalG.Delete
open Foundation Wal List

namespace PgStorage

variable {w : WalSize} (s : PgStorage w)

/-- `n` was made as an increment from `m`. -/
def Parent (m n : PgBackupName w) : Prop :=
  m ∈ s.names ∧ (s.increment n).map IncrementInfo.incrementFrom = some m.text

/-- No object of the backup is among the deleted ones. -/
def Remains (deleted : List Text) (n : PgBackupName w) : Prop :=
  ∀ rest, PgBackupName.Ends rest → baseBackupPath ++ (n.text ++ rest) ∉ deleted

/-- The backup remains and so does its base, down to a full backup. -/
inductive WholeChain (deleted : List Text) : PgBackupName w → Prop where
  | full {n} (hfull : s.increment n = none) (hn : Remains deleted n) : WholeChain deleted n
  | delta {m n} (hparent : s.Parent m n) (hn : Remains deleted n) (hm : WholeChain deleted m) :
    WholeChain deleted n

variable {s} {byTime : Bool} {m n target : PgBackupName w} {deleted : List Text}

theorem WholeChain.remains (h : s.WholeChain deleted n) : Remains deleted n := by
  cases h with
  | full _ hn => exact hn
  | delta _ hn _ => exact hn

theorem Parent.unique {m' : PgBackupName w} (h : s.Parent m n) (h' : s.Parent m' n) : m = m' := by
  apply text_injective
  rw [← Option.some.injEq, ← h.2, ← h'.2]

theorem sentinel_mem (hn : n ∈ s.names) : baseBackupPath ++ n.sentinel ∈ s.storage.objects := by
  have hmem : n.sentinel ∈ s.storage.getBackupSentinelObjects := by
    rw [s.sentinels]
    exact mem_map_of_mem hn
  exact mem_subFolder.mp (mem_filter.mp hmem).1

theorem mem_permanentBackups (hn : n ∈ s.names) : n.text ∈ s.permanentBackups ↔ s.permanent n = true := by
  rw [permanentBackups, mem_map]
  constructor
  · rintro ⟨m, hm, htext⟩
    rw [← text_injective htext]
    exact (mem_filter.mp hm).2
  · exact fun hp => ⟨n, mem_filter.mpr ⟨hn, hp⟩, rfl⟩

theorem isPermanent_object (hn : n ∈ s.names) {rest : Text} (h : PgBackupName.Ends rest) :
    s.isPermanent (baseBackupPath ++ (n.text ++ rest)) = .ok (s.permanent n) := by
  rw [isPermanent, isPermanent_stored n _ _ h]
  congr 1
  rw [Bool.decide_congr (mem_permanentBackups hn), Bool.decide_eq_true]

theorem mem_deleted_object (htarget : target ∈ s.names) (hn : n ∈ s.names)
    (h : (s.handler byTime).deleteBeforeTarget s.storage.objects (s.object byTime target) = .ok deleted)
    {rest : Text} (hrest : PgBackupName.Ends rest) :
    baseBackupPath ++ (n.text ++ rest) ∈ deleted ↔
      baseBackupPath ++ (n.text ++ rest) ∈ s.storage.objects ∧
        s.key byTime n < s.key byTime target ∧ s.permanent n = false := by
  rw [(mem_deleteBeforeTarget h).2, s.less_stored byTime hn htarget hrest, isPermanent_object hn hrest,
    decide_eq_true_eq, Except.ok.injEq]

theorem remains_iff (htarget : target ∈ s.names) (hn : n ∈ s.names)
    (h : (s.handler byTime).deleteBeforeTarget s.storage.objects (s.object byTime target) = .ok deleted) :
    Remains deleted n ↔ ¬ (s.key byTime n < s.key byTime target ∧ s.permanent n = false) := by
  constructor
  · intro hremains hbefore
    exact hremains sentinelSuffix (.inl rfl)
      ((mem_deleted_object htarget hn h (.inl rfl)).mpr ⟨sentinel_mem hn, hbefore⟩)
  · intro hbefore rest hrest hmem
    exact hbefore ((mem_deleted_object htarget hn h hrest).mp hmem).2

/-- Without its base a delta has no chain. -/
theorem not_wholeChain (hparent : s.Parent m n) (hm : ¬ Remains deleted m) : ¬ s.WholeChain deleted n := by
  intro hchain
  cases hchain with
  | full hnone _ =>
    have hsome := hparent.2
    rw [hnone] at hsome
    cases hsome
  | delta hparent' _ hwhole =>
    rw [hparent'.unique hparent] at hwhole
    exact hm hwhole.remains

/-- A full backup between a base and its delta orphans the delta. -/
theorem deleteBeforeTarget_orphans (s : PgStorage w) (byTime : Bool) (hparent : s.Parent m n)
    (hn : n ∈ s.names) (htarget : target ∈ s.names) (hfull : s.increment target = none)
    (hbefore : s.key byTime m < s.key byTime target) (hpermanent : s.permanent m = false)
    (hafter : ¬ (s.key byTime n < s.key byTime target ∧ s.permanent n = false)) :
    ∃ deleted, (s.handler byTime).deleteBeforeTarget s.storage.objects (s.object byTime target) = .ok deleted ∧
      Remains deleted n ∧ ¬ s.WholeChain deleted n := by
  obtain ⟨deleted, hdeleted⟩ := deleteBeforeTarget_ok s byTime hfull s.storage.objects
  refine ⟨deleted, hdeleted, (remains_iff htarget hn hdeleted).mpr hafter, not_wholeChain hparent ?_⟩
  rw [remains_iff htarget hparent.1 hdeleted, not_not]
  exact ⟨hbefore, hpermanent⟩

/-- A command keeps the chain of every backup it keeps if and only if every delta
whose impermanent base is before the full backup that the command selects is before
it as well and impermanent. -/
theorem run_keeps_chains_iff (s : PgStorage w) (byTime : Bool) (sort : SliceSort BackupObject)
    (hchains : ∀ n ∈ s.names, s.WholeChain [] n) (command : DeleteCommand)
    (hcommand : ∀ findFull targetName, command ≠ .target findFull targetName) :
    (∀ deleted, (s.handler byTime).run sort s.storage.objects command = some (.ok deleted) →
        ∀ n ∈ s.names, Remains deleted n → s.WholeChain deleted n) ↔
      ∀ target, s.Selects byTime sort command target → s.increment target = none →
        ∀ m n, s.Parent m n → n ∈ s.names → s.key byTime m < s.key byTime target → s.permanent m = false →
          s.key byTime n < s.key byTime target ∧ s.permanent n = false := by
  constructor
  · intro hkeeps target hselects hfull m n hparent hn hbefore hpermanent
    by_contra hafter
    obtain ⟨deleted, hdeleted, hremains, hbroken⟩ :=
      deleteBeforeTarget_orphans s byTime hparent hn hselects.mem hfull hbefore hpermanent hafter
    exact hbroken (hkeeps deleted ((run_ok_iff hcommand).mpr (.inr ⟨target, hselects, hdeleted⟩)) n hn hremains)
  · intro hcond deleted hrun n hn hremains
    rcases (run_ok_iff hcommand).mp hrun with ⟨-, rfl⟩ | ⟨target, hselects, hdeleted⟩
    · exact hchains n hn
    · obtain ⟨hfull, -⟩ := mem_deleteBeforeTarget hdeleted
      have hchain := hchains n hn
      induction hchain with
      | full hnone _ => exact .full hnone hremains
      | @delta m n hparent _ _ ih =>
        refine .delta hparent hremains (ih hparent.1 ?_)
        rw [remains_iff hselects.mem hparent.1 hdeleted]
        rintro ⟨hbefore, hpermanent⟩
        exact (remains_iff hselects.mem hn hdeleted).mp hremains
          (hcond target hselects hfull m n hparent hn hbefore hpermanent)

/-- The full backup of a segment of the first timeline. -/
def fullAt (no : UInt32) : PgBackupName .default := ⟨.ofWords 1 no, none⟩

/-- The delta of a segment over the full backup of segment one. -/
def deltaAt (no : UInt32) : PgBackupName .default := ⟨.ofWords 1 no, some (.ofWords 1 1)⟩

/-- A full backup of segment one, a delta over it and another full backup. -/
def baseDeltaFull (d f : UInt32) (hnodup : [fullAt 1, deltaAt d, fullAt f].Nodup) : PgStorage .default :=
  ofBackups [fullAt 1, deltaAt d, fullAt f] hnodup
    (fun n => if n.base.isNone then none else some ⟨(fullAt 1).text, (fullAt 1).text⟩)
    (fun _ => ⟨false, 0, 0, 0⟩) [] no_others

theorem baseDeltaFull_chains {d f : UInt32} (hnodup : [fullAt 1, deltaAt d, fullAt f].Nodup) :
    ∀ n ∈ (baseDeltaFull d f hnodup).names, (baseDeltaFull d f hnodup).WholeChain [] n := by
  have hremains : ∀ n : PgBackupName .default, Remains [] n := fun _ _ _ => not_mem_nil
  have hbase : (baseDeltaFull d f hnodup).WholeChain [] (fullAt 1) := .full rfl (hremains _)
  intro n hn
  rcases mem_cons.mp hn with rfl | hn
  · exact hbase
  · rcases mem_cons.mp hn with rfl | hn
    · exact .delta ⟨mem_cons_self, rfl⟩ (hremains _) hbase
    · rw [mem_singleton.mp hn]
      exact .full rfl (hremains _)

theorem key_lt_iff :
    s.key false m < s.key false n ↔ m.start.timeline < n.start.timeline ∨
      m.start.timeline = n.start.timeline ∧ m.start.no < n.start.no := by
  simp only [key, Bool.false_eq_true, if_false, Prod.Lex.toLex_lt_toLex, Nat.cast_lt, Nat.cast_inj]

/-- The other full backup came after the delta. -/
def orderedBackups : PgStorage .default := baseDeltaFull 2 3 (by decide)

/-- The delta was made from the older of two full backups. -/
def straddledBackups : PgStorage .default := baseDeltaFull 3 2 (by decide)

/-- The base goes with its delta, before the later full backup. -/
theorem run_keeps_chains_ordered : (∀ n ∈ orderedBackups.names, orderedBackups.WholeChain [] n) ∧
    ∀ deleted, (orderedBackups.handler false).run (mergeSlice _) orderedBackups.storage.objects
        (.before .noDelete (.name (fullAt 3).sentinel)) = some (.ok deleted) →
      ∀ n ∈ orderedBackups.names, Remains deleted n → orderedBackups.WholeChain deleted n := by
  have hchains : ∀ n ∈ orderedBackups.names, orderedBackups.WholeChain [] n := baseDeltaFull_chains _
  refine ⟨hchains, (run_keeps_chains_iff _ false (mergeSlice _) hchains
    (.before .noDelete (.name (fullAt 3).sentinel)) (fun _ _ => DeleteCommand.noConfusion)).mpr ?_⟩
  intro target hselects _ m n hparent hn _ _
  refine ⟨?_, rfl⟩
  have hthird : fullAt 3 ∈ orderedBackups.names :=
    mem_cons_of_mem _ (mem_cons_of_mem _ mem_cons_self)
  have hselects' := selects_beforeName orderedBackups false hthird (mergeSlice _)
  rw [Selects, hselects] at hselects'
  obtain rfl := orderedBackups.object_injective false (Option.some.inj (Except.ok.inj hselects'))
  rw [key_lt_iff]
  rcases mem_cons.mp hn with rfl | hn
  · decide
  · rcases mem_cons.mp hn with rfl | hn
    · decide
    · rw [mem_singleton.mp hn] at hparent
      cases hparent.2

theorem delta_orphaned_by_later_full : (∀ n ∈ straddledBackups.names, straddledBackups.WholeChain [] n) ∧
    ∃ deleted, (straddledBackups.handler false).run (mergeSlice _) straddledBackups.storage.objects
        (.before .noDelete (.name (fullAt 2).sentinel)) = some (.ok deleted) ∧
      Remains deleted (deltaAt 3) ∧
      ¬ straddledBackups.WholeChain deleted (deltaAt 3) := by
  have hsecond : fullAt 2 ∈ straddledBackups.names :=
    mem_cons_of_mem _ (mem_cons_of_mem _ mem_cons_self)
  refine ⟨baseDeltaFull_chains _, ?_⟩
  obtain ⟨deleted, hdeleted, horphaned⟩ := deleteBeforeTarget_orphans straddledBackups false
    (m := fullAt 1) (n := deltaAt 3) ⟨mem_cons_self, rfl⟩
    (mem_cons_of_mem _ mem_cons_self) hsecond rfl (key_lt_iff.mpr (by decide)) rfl (by
      decide)
  have hselects := selects_beforeName straddledBackups false hsecond (mergeSlice _)
  exact ⟨deleted, (run_ok_iff fun _ _ => DeleteCommand.noConfusion).mpr (.inr ⟨_, hselects, hdeleted⟩), horphaned⟩

end PgStorage

end WalG.Delete
