import WalG.Foundation.Newest
import WalG.Delete.WalRetention
import WalG.Delete.RetainChoice

/-! # Retention with a point

The command promises to keep a number of the newest backups and everything from a point on.
-/
namespace WalG.Delete
open Foundation Wal List

namespace PgStorage

variable {w : WalSize} (s : PgStorage w) (byTime : Bool) (sort : SliceSort BackupObject)

/-- Made at the time or after it; or not before the oldest backup with such a name. -/
def AtOrAfter (n : PgBackupName w) : Point → Prop
  | .time timeLine => timeLine ≤ s.time byTime n
  | .name start => ∃ m ∈ s.names, start <+: m.sentinel ∧ s.key byTime m ≤ s.key byTime n

/-- What remains after the deletion is what the command promises to keep. -/
structure KeepsPromise (modifier : DeleteModifier) (retentionCount : ℕ) (point : Point)
    (deleted : List Text) : Prop where
  recent : ∃ newest, Newest (s.key byTime) s.names (min retentionCount s.names.length) newest ∧
    ∀ n ∈ newest, Remains deleted n
  full : modifier = .full → retentionCount ≤ (s.names.filter s.isFull).length →
    ∃ newest, Newest (s.key byTime) (s.names.filter s.isFull) retentionCount newest ∧
      ∀ n ∈ newest, Remains deleted n
  after : ∀ n ∈ s.names, s.AtOrAfter byTime n point → Remains deleted n

/-- The command ends without a panic, and if it deletes it keeps its promise. -/
def Honoured (modifier : DeleteModifier) (retentionCount : ℕ) (point : Point) : Prop :=
  (∀ e, (s.handler byTime).run sort s.storage.objects (.retainAfter modifier retentionCount point) =
      some (.error e) → e = .forbiddenAction) ∧
    ∀ deleted, (s.handler byTime).run sort s.storage.objects (.retainAfter modifier retentionCount point) =
      some (.ok deleted) → s.KeepsPromise byTime modifier retentionCount point deleted

/-- The deletion before a target spares this backup. -/
def Kept (target n : PgBackupName w) : Prop :=
  ¬ (s.key byTime n < s.key byTime target ∧ s.permanent n = false)

instance (target : PgBackupName w) : DecidablePred (s.Kept byTime target) := fun _ =>
  inferInstanceAs (Decidable (¬ _))

/-- The deletion before a target spares what the command promises to keep. -/
structure Spares (modifier : DeleteModifier) (retentionCount : ℕ) (point : Point) (target : PgBackupName w) :
    Prop where
  recent : ∀ n ∈ s.names, ¬ s.Kept byTime target n → min retentionCount s.names.length ≤
    s.names.countP fun m => s.Kept byTime target m ∧ s.key byTime n ≤ s.key byTime m
  full : modifier = .full → retentionCount ≤ (s.names.filter s.isFull).length →
    ∀ n ∈ s.names.filter s.isFull, ¬ s.Kept byTime target n → retentionCount ≤
      (s.names.filter s.isFull).countP fun m => s.Kept byTime target m ∧ s.key byTime n ≤ s.key byTime m
  after : ∀ n ∈ s.names, s.AtOrAfter byTime n point → s.Kept byTime target n

variable {s byTime sort} {modifier : DeleteModifier} {retentionCount : ℕ} {point : Point}
  {n target target1 : PgBackupName w} {deleted : List Text}

section Promise

theorem exists_newest_remains_iff {all : List (PgBackupName w)} {k : ℕ} (hall : ∀ n ∈ all, n ∈ s.names)
    (hnodup : all.Nodup) (hk : k ≤ all.length) (htarget : target ∈ s.names)
    (h : (s.handler byTime).deleteBeforeTarget s.storage.objects (s.object byTime target) = .ok deleted) :
    (∃ newest, Newest (s.key byTime) all k newest ∧ ∀ n ∈ newest, Remains deleted n) ↔
      ∀ n ∈ all, ¬ s.Kept byTime target n →
        k ≤ all.countP fun m => s.Kept byTime target m ∧ s.key byTime n ≤ s.key byTime m := by
  rw [← exists_newest_iff hnodup hk]
  constructor
  · rintro ⟨newest, hnewest, hremains⟩
    exact ⟨newest, hnewest, fun n hn =>
      (remains_iff htarget (hall n (hnewest.subset hn)) h).mp (hremains n hn)⟩
  · rintro ⟨newest, hnewest, hkept⟩
    exact ⟨newest, hnewest, fun n hn =>
      (remains_iff htarget (hall n (hnewest.subset hn)) h).mpr (hkept n hn)⟩

theorem le_countP_kept {all : List (PgBackupName w)} {k : ℕ}
    (hcount : k ≤ all.countP fun m => s.key byTime target1 ≤ s.key byTime m)
    (hle : s.key byTime target ≤ s.key byTime target1) (hn : ¬ s.Kept byTime target n) :
    k ≤ all.countP fun m => s.Kept byTime target m ∧ s.key byTime n ≤ s.key byTime m := by
  refine hcount.trans (countP_mono_left fun m _ hm => ?_)
  have htarget := hle.trans (of_decide_eq_true hm)
  rw [Kept, not_not] at hn
  exact decide_eq_true ⟨fun h => absurd h.1 (not_lt.mpr htarget), hn.1.le.trans htarget⟩

theorem le_countP_full (hcount : 1 ≤ retentionCount) (h : target1 ∈ s.retainBeyond byTime sort .full retentionCount) :
    retentionCount ≤ (s.names.filter s.isFull).countP fun m => s.key byTime target1 ≤ s.key byTime m := by
  rw [← ((@newestFirst_perm w s byTime sort).filter _).countP_eq, ← Nat.sub_add_cancel hcount]
  exact le_countP_of_mem_drop (newestFirst_sorted.sublist filter_sublist) h

theorem le_countP_names (hcount : 1 ≤ retentionCount)
    (h : target1 ∈ s.retainBeyond byTime sort modifier retentionCount) :
    retentionCount ≤ s.names.countP fun m => s.key byTime target1 ≤ s.key byTime m := by
  have hdrop : target1 ∈ (s.newestFirst byTime sort).drop (retentionCount - 1) →
      retentionCount ≤ s.names.countP fun m => s.key byTime target1 ≤ s.key byTime m := by
    rw [← (@newestFirst_perm w s byTime sort).countP_eq, ← Nat.sub_add_cancel hcount]
    exact le_countP_of_mem_drop newestFirst_sorted
  cases modifier with
  | noDelete => exact hdrop h
  | full => exact (le_countP_full hcount h).trans filter_sublist.countP_le
  | findFull => exact hdrop (mem_filter.mp h).1

end Promise

section Run

theorem keepsPromise_nil : s.KeepsPromise byTime modifier retentionCount point [] := by
  have hremains : ∀ n : PgBackupName w, Remains [] n := fun _ _ _ => not_mem_nil
  constructor
  · obtain ⟨newest, hnewest⟩ := exists_newest (s.key byTime) s.names_nodup
      (min_le_right retentionCount s.names.length)
    exact ⟨newest, hnewest, fun n _ => hremains n⟩
  · intro _ hk
    obtain ⟨newest, hnewest⟩ := exists_newest (s.key byTime) (s.names_nodup.filter s.isFull) hk
    exact ⟨newest, hnewest, fun n _ => hremains n⟩
  · exact fun n _ _ => hremains n

theorem keepsPromise_iff (htarget : target ∈ s.names)
    (h : (s.handler byTime).deleteBeforeTarget s.storage.objects (s.object byTime target) = .ok deleted) :
    s.KeepsPromise byTime modifier retentionCount point deleted ↔
      s.Spares byTime modifier retentionCount point target := by
  have hrecent := exists_newest_remains_iff (fun n hn => hn) s.names_nodup
    (min_le_right retentionCount s.names.length) htarget h
  have hfull : ∀ hk : retentionCount ≤ (s.names.filter s.isFull).length, _ := fun hk =>
    exists_newest_remains_iff (fun n hn => (mem_filter.mp hn).1) (s.names_nodup.filter _) hk htarget h
  constructor
  · rintro ⟨h1, h2, h3⟩
    exact ⟨hrecent.mp h1, fun hm hk => (hfull hk).mp (h2 hm hk), fun n hn hafter =>
      (remains_iff htarget hn h).mp (h3 n hn hafter)⟩
  · rintro ⟨h1, h2, h3⟩
    exact ⟨hrecent.mpr h1, fun hm hk => (hfull hk).mpr (h2 hm hk), fun n hn hafter =>
      (remains_iff htarget hn h).mpr (h3 n hn hafter)⟩

theorem retainAfterTarget_mem {found : Option (PgBackupName w)}
    (h : s.retainAfterTarget byTime point (s.retainBeyond byTime sort modifier retentionCount).head?
      (s.retainSince byTime sort modifier point).head? = .ok found) : ∀ n ∈ found, n ∈ s.names := by
  have h1 : ∀ n ∈ (s.retainBeyond byTime sort modifier retentionCount).head?, n ∈ s.names :=
    fun n hn => mem_retainBeyond (mem_of_mem_head? hn)
  have h2 : ∀ n ∈ (s.retainSince byTime sort modifier point).head?, n ∈ s.names :=
    fun n hn => mem_retainSince (mem_of_mem_head? hn)
  unfold retainAfterTarget at h
  split at h <;> grind

/-- The command is honoured if it finds the target it needs and what is before that can be spared. -/
theorem honoured_iff (hcount : 1 ≤ retentionCount) :
    s.Honoured byTime sort modifier retentionCount point ↔
      ∃ found, s.retainAfterTarget byTime point (s.retainBeyond byTime sort modifier retentionCount).head?
          (s.retainSince byTime sort modifier point).head? = .ok found ∧
        ∀ target ∈ found, s.increment target = none →
          s.Spares byTime modifier retentionCount point target := by
  have htarget := @findBeforeTarget_retainAfter w s byTime sort modifier retentionCount point hcount
  rw [Honoured]
  simp only [DeleteHandler.run, htarget]
  cases hfound : s.retainAfterTarget byTime point (s.retainBeyond byTime sort modifier retentionCount).head?
      (s.retainSince byTime sort modifier point).head? with
  | error e =>
    have he : e = .nilTarget := by
      unfold retainAfterTarget at hfound
      split at hfound <;> simp_all
    simp [he, Except.map]
  | ok found =>
    cases found with
    | none =>
      simp only [Except.map, Option.map_none]
      simp [keepsPromise_nil]
    | some target =>
      have hmem := retainAfterTarget_mem hfound target rfl
      simp only [Except.map, Option.map_some, Option.some.injEq]
      cases hi : s.increment target with
      | some info => simp [DeleteHandler.deleteBeforeTarget, object, hi]
      | none =>
        obtain ⟨deleted, hdeleted⟩ := deleteBeforeTarget_ok s byTime hi s.storage.objects
        simp [hdeleted, hi, keepsPromise_iff hmem hdeleted]

end Run

section Targets

theorem forall_of_mem_head? {R : PgBackupName w → PgBackupName w → Prop} {l : List (PgBackupName w)}
    (hl : l.Pairwise R) (hrefl : R n n) (h : n ∈ l.head?) : ∀ m ∈ l, R n m := by
  obtain ⟨rest, rfl⟩ := head?_eq_some_iff.mp h
  rw [forall_mem_cons]
  exact ⟨hrefl, (pairwise_cons.mp hl).1⟩

theorem full_of_mem (retentionCount : ℕ) (point : Point) (hmodifier : modifier ≠ .noDelete)
    (h : n ∈ s.retainBeyond byTime sort modifier retentionCount ∨ n ∈ s.retainSince byTime sort modifier point) :
    s.increment n = none := by
  refine Option.isNone_iff_eq_none.mp (show s.isFull n = true from ?_)
  cases modifier with
  | noDelete => exact absurd rfl hmodifier
  | full => exact h.elim (fun h => (mem_filter.mp (mem_of_mem_drop h)).2) fun h => (mem_filter.mp h).2
  | findFull => exact h.elim (fun h => (mem_filter.mp h).2) fun h => (mem_filter.mp h).2

theorem mem_dropWhile_of_not {α : Type} {p : α → Bool} {l : List α} {a : α} (ha : a ∈ l)
    (hp : p a = false) : a ∈ l.dropWhile p := by
  rw [← takeWhile_append_dropWhile (p := p) (l := l)] at ha
  rcases mem_append.mp ha with ha | ha
  · rw [mem_takeWhile_imp ha] at hp
    cases hp
  · exact ha

/-- Without a modifier, what was made from the point on is not before the second
target. -/
theorem exists_retainSince (hn : n ∈ s.names) (h : s.AtOrAfter byTime n point) :
    ∃ m ∈ s.retainSince byTime sort .noDelete point, s.key byTime m ≤ s.key byTime n := by
  cases point with
  | time timeLine =>
    exact ⟨n, mem_filter.mpr ⟨oldestFirst_perm.mem_iff.mpr hn, decide_eq_true h⟩, le_rfl⟩
  | name start =>
    obtain ⟨m, hm, hstart, hle⟩ := h
    refine ⟨m, mem_dropWhile_of_not (oldestFirst_perm.mem_iff.mpr hm) ?_, hle⟩
    rw [List.isPrefixOf_iff_prefix.mpr hstart]
    rfl

end Targets

section Cases

theorem spares_iff_of_counted (hcount : 1 ≤ retentionCount)
    (hcounted : target1 ∈ (s.retainBeyond byTime sort modifier retentionCount).head?)
    (hbefore : ∀ n, s.key byTime n < s.key byTime target ↔ s.key byTime n < s.key byTime target1 ∧
      ∀ m ∈ s.retainSince byTime sort modifier point, s.key byTime n < s.key byTime m)
    (hfull : modifier ≠ .noDelete → s.increment target = none) :
    (s.increment target = none → s.Spares byTime modifier retentionCount point target) ↔
      ∀ n ∈ s.names, s.permanent n = false → s.AtOrAfter byTime n point →
        (∀ m ∈ s.retainBeyond byTime sort modifier retentionCount, s.key byTime m ≤ s.key byTime n) ∨
          ∃ m ∈ s.retainSince byTime sort modifier point, s.key byTime m ≤ s.key byTime n := by
  have hmem := mem_of_mem_head? hcounted
  have hbeyond := forall_of_mem_head? (newestFirst_sorted.sublist retainBeyond_sublist) le_rfl hcounted
  have hle : s.key byTime target ≤ s.key byTime target1 := by
    by_contra hlt
    exact lt_irrefl _ ((hbefore target1).mp (not_le.mp hlt)).1
  have hkept : ∀ n, s.permanent n = false → (s.Kept byTime target n ↔
      (∀ m ∈ s.retainBeyond byTime sort modifier retentionCount, s.key byTime m ≤ s.key byTime n) ∨
        ∃ m ∈ s.retainSince byTime sort modifier point, s.key byTime m ≤ s.key byTime n) := by
    intro n hp
    have htarget1 : (∀ m ∈ s.retainBeyond byTime sort modifier retentionCount,
        s.key byTime m ≤ s.key byTime n) ↔ s.key byTime target1 ≤ s.key byTime n :=
      ⟨fun hall => hall _ hmem, fun hn m hm => (hbeyond m hm).trans hn⟩
    rw [Kept, hp, hbefore, htarget1]
    simp only [and_true, not_and_or, not_lt, not_forall, exists_prop]
  constructor
  · intro hspares n hn hp hafter
    by_cases hmodifier : modifier = .noDelete
    · subst hmodifier
      exact .inr (exists_retainSince hn hafter)
    · exact (hkept n hp).mp ((hspares (hfull hmodifier)).after n hn hafter)
  · intro hcond _
    refine ⟨fun n _ hnot => (min_le_left _ _).trans (le_countP_kept (le_countP_names hcount hmem) hle hnot),
      fun hm _ n _ hnot => ?_, fun n hn hafter => ?_⟩
    · subst hm
      exact le_countP_kept (le_countP_full hcount hmem) hle hnot
    · cases hp : s.permanent n with
      | true => simp [Kept, hp]
      | false => exact (hkept n hp).mpr (hcond n hn hp hafter)

/-- If the count does not find a target, the deletion goes by the point alone. -/
theorem spares_iff_of_uncounted (hcount : 1 ≤ retentionCount)
    (hnone : s.retainBeyond byTime sort modifier retentionCount = []) :
    s.Spares byTime modifier retentionCount point target ↔
      ∀ n ∈ s.names, s.permanent n = false → s.key byTime n < s.key byTime target →
        ¬ s.AtOrAfter byTime n point ∧ min retentionCount s.names.length ≤ s.names.countP fun m =>
          (s.permanent m = true ∨ s.key byTime target ≤ s.key byTime m) ∧ s.key byTime n ≤ s.key byTime m := by
  have hkept : ∀ m, s.Kept byTime target m ↔
      s.permanent m = true ∨ s.key byTime target ≤ s.key byTime m := by
    intro m
    rw [Kept, not_and_or, not_lt, Bool.not_eq_false, or_comm]
  have hfull : modifier = .full → ¬ retentionCount ≤ (s.names.filter s.isFull).length := by
    rintro rfl hle
    rw [retainBeyond, beyond, drop_eq_nil_iff, ((@newestFirst_perm w s byTime sort).filter _).length_eq] at hnone
    omega
  constructor
  · rintro ⟨hrecent, -, hafter⟩ n hn hp hbefore
    grind
  · intro hcond
    refine ⟨?_, fun hm hk => absurd hk (hfull hm), ?_⟩ <;> simp only [hkept] <;> grind

end Cases

/-- A retention with a point keeps its promise if and only if: with a name, both
searches find a target; with a counted target, every impermanent backup from the
point on is not before it or not before the second one; and without a counted
target, what is before the second one is not from the point on and enough others
remain. -/
theorem retainAfter_honoured_iff (s : PgStorage w) (byTime : Bool) (sort : SliceSort BackupObject)
    (modifier : DeleteModifier) {retentionCount : ℕ} (hcount : 1 ≤ retentionCount) (point : Point) :
    s.Honoured byTime sort modifier retentionCount point ↔
      (∀ start, point = .name start → s.retainBeyond byTime sort modifier retentionCount ≠ [] ∧
        s.retainSince byTime sort modifier point ≠ []) ∧
      (s.retainBeyond byTime sort modifier retentionCount ≠ [] →
        ∀ n ∈ s.names, s.permanent n = false → s.AtOrAfter byTime n point →
          (∀ m ∈ s.retainBeyond byTime sort modifier retentionCount, s.key byTime m ≤ s.key byTime n) ∨
            ∃ m ∈ s.retainSince byTime sort modifier point, s.key byTime m ≤ s.key byTime n) ∧
      (s.retainBeyond byTime sort modifier retentionCount = [] →
        ∀ target ∈ (s.retainSince byTime sort modifier point).head?, s.increment target = none →
          ∀ n ∈ s.names, s.permanent n = false → s.key byTime n < s.key byTime target →
            ¬ s.AtOrAfter byTime n point ∧ min retentionCount s.names.length ≤ s.names.countP fun m =>
              (s.permanent m = true ∨ s.key byTime target ≤ s.key byTime m) ∧ s.key byTime n ≤ s.key byTime m) := by
  rw [honoured_iff hcount]
  cases h1 : (s.retainBeyond byTime sort modifier retentionCount).head? with
  | none =>
    have hbeyond := head?_eq_none_iff.mp h1
    cases point with
    | name start =>
      refine iff_of_false ?_ fun hcond => (hcond.1 start rfl).1 hbeyond
      cases (s.retainSince byTime sort modifier (.name start)).head? <;> simp [retainAfterTarget]
    | time timeLine =>
      have hfound (found : Option (PgBackupName w)) :
          s.retainAfterTarget byTime (.time timeLine) none found = .ok found := by cases found <;> rfl
      simp [hfound, hbeyond, spares_iff_of_uncounted hcount hbeyond]
  | some target1 =>
    have hmem1 := mem_of_mem_head? h1
    have hbeyond : s.retainBeyond byTime sort modifier retentionCount ≠ [] := ne_nil_of_mem hmem1
    cases h2 : (s.retainSince byTime sort modifier point).head? with
    | none =>
      have hsince := head?_eq_none_iff.mp h2
      cases point with
      | name start => exact iff_of_false (by simp [retainAfterTarget]) fun hcond => (hcond.1 start rfl).2 hsince
      | time timeLine =>
        have hspares := @spares_iff_of_counted w s byTime sort modifier retentionCount (.time timeLine)
          target1 target1 hcount h1 (fun n => by simp [hsince]) fun hmodifier =>
          full_of_mem retentionCount (.time timeLine) hmodifier (.inl hmem1)
        simp [retainAfterTarget, hbeyond, hspares]
    | some target2 =>
      have hmem2 := mem_of_mem_head? h2
      have hle := forall_of_mem_head? (oldestFirst_sorted.sublist retainSince_sublist) le_rfl h2
      have hsince (n : PgBackupName w) : (∀ m ∈ s.retainSince byTime sort modifier point,
          s.key byTime n < s.key byTime m) ↔ s.key byTime n < s.key byTime target2 :=
        ⟨fun hall => hall _ hmem2, fun hlt m hm => hlt.trans_le (hle m hm)⟩
      have hspares := @spares_iff_of_counted w s byTime sort modifier retentionCount point
        (if s.key byTime target1 < s.key byTime target2 then target1 else target2) target1 hcount h1
        (fun n => by rw [hsince]; split_ifs <;> grind) fun hmodifier => by
          split_ifs
          exacts [full_of_mem _ point hmodifier (.inl hmem1), full_of_mem retentionCount _ hmodifier (.inr hmem2)]
      have hfound : s.retainAfterTarget byTime point (some target1) (some target2) =
          .ok (some (if s.key byTime target1 < s.key byTime target2 then target1 else target2)) := by
        cases point <;> rfl
      simp [hfound, hbeyond, hspares, ne_nil_of_mem hmem2]

theorem twoFulls_nodup : [fullAt 1, fullAt 2].Nodup := by decide

/-- Full backups of segments one and two; their start times are these numbers. -/
def twoFulls : PgStorage .default :=
  ofBackups [fullAt 1, fullAt 2] twoFulls_nodup
    (fun _ => none) (fun n => ⟨false, 0, 0, n.start.no⟩) [] no_others

theorem retainAfter_honoured_twoFulls :
    twoFulls.Honoured true (mergeSlice _) .noDelete 2 (.name (fullAt 1).sentinel) := by
  have hmem : fullAt 1 ∈ twoFulls.names := mem_cons_self
  refine (retainAfter_honoured_iff _ true _ .noDelete (by decide) _).mpr ⟨fun _ _ => ?_, ?_, ?_⟩
  · have hafter : twoFulls.AtOrAfter true (fullAt 1) (.name (fullAt 1).sentinel) :=
      ⟨_, hmem, prefix_rfl, le_rfl⟩
    obtain ⟨m, hm, -⟩ := @exists_retainSince _ twoFulls true (mergeSlice _) _ _ hmem hafter
    refine ⟨fun hnil => ?_, ne_nil_of_mem hm⟩
    have hlen := congrArg length hnil
    rw [retainBeyond, beyond, length_drop, newestFirst_perm.length_eq] at hlen
    cases hlen
  · exact fun _ n hn _ hafter => .inr (exists_retainSince hn hafter)
  · intro hnil
    have hlen := congrArg length hnil
    rw [retainBeyond, beyond, length_drop, newestFirst_perm.length_eq] at hlen
    cases hlen

/-- Three backups are wanted of two. With a name the command panics, with a time it
deletes one. -/
theorem retainAfter_twoFulls_broken : (twoFulls.handler true).run (mergeSlice _) twoFulls.storage.objects
        (.retainAfter .noDelete 3 (.name (fullAt 1).sentinel)) = some (.error .nilTarget) ∧
      ¬ twoFulls.Honoured true (mergeSlice _) .noDelete 3 (.time 2) := by
  have hbeyond : twoFulls.retainBeyond true (mergeSlice _) .noDelete 3 = [] := by
    rw [retainBeyond, beyond, drop_eq_nil_iff, newestFirst_perm.length_eq]
    decide
  have hsince : (twoFulls.retainSince true (mergeSlice _) .noDelete (.time 2)).head? =
      some (fullAt 2) := by
    have hmem : fullAt 2 ∈ twoFulls.retainSince true (mergeSlice _) .noDelete (.time 2) :=
      mem_filter.mpr ⟨oldestFirst_perm.mem_iff.mpr (mem_cons_of_mem _ mem_cons_self), rfl⟩
    obtain ⟨m, l, hl⟩ := exists_cons_of_ne_nil (ne_nil_of_mem hmem)
    have hm : m ∈ twoFulls.retainSince true (mergeSlice _) .noDelete (.time 2) := hl ▸ mem_cons_self
    obtain ⟨hnames, htime⟩ := mem_filter.mp hm
    rw [oldestFirst_perm.mem_iff] at hnames
    rw [hl, head?_cons]
    rcases mem_cons.mp hnames with rfl | hnames
    · exact absurd htime (by decide)
    · rw [mem_singleton.mp hnames]
  constructor
  · have htarget := @findBeforeTarget_retainAfter _ twoFulls true (mergeSlice _) .noDelete 3
      (.name (fullAt 1).sentinel) (by decide)
    rw [hbeyond] at htarget
    simp only [DeleteHandler.run, htarget]
    rfl
  · rw [honoured_iff (by decide), hbeyond, hsince]
    rintro ⟨_, ⟨⟩, hspares⟩
    have hcond := (spares_iff_of_uncounted (by decide) hbeyond).mp (hspares _ rfl rfl)
    have hcount := (hcond (fullAt 1) mem_cons_self rfl (key_time_lt_iff.mpr (by decide))).2
    exact absurd hcount (by decide)

end PgStorage

end WalG.Delete
