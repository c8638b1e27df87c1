import WalG.Delete.BeforeTarget

/-! # The two targets of a retention with a point

One search counts from the newest backup down, the other looks from the oldest backup up for the
point.
-/
namespace WalG.Delete
open Foundation Wal List

section Lists

variable {α : Type} (full : α → Bool)

/-- From the counted one down: of all backups, of the full ones, or the full ones
of these. -/
def beyond (retentionCount : ℕ) (newestFirst : List α) : DeleteModifier → List α
  | .noDelete => newestFirst.drop (retentionCount - 1)
  | .full => (newestFirst.filter full).drop (retentionCount - 1)
  | .findFull => (newestFirst.drop (retentionCount - 1)).filter full

/-- What may be the second target, among the backups from the point on. -/
def since (after : List α) : DeleteModifier → List α
  | .noDelete => after
  | _ => after.filter full

variable {full} {f : α → BackupObject}

variable (hfull : ∀ a, (f a).isFullBackup = full a)

include hfull

theorem choose_retain_from {n count : ℕ} {modifier : DeleteModifier} (h : count < n ∨ modifier = .findFull)
    (l : List α) : choose (getRetainChoiceFunc n modifier) count (l.map f) =
      (beyond full (n - count) l modifier).head?.map f := by
  induction l generalizing count with
  | nil => cases modifier <;> simp [choose, beyond]
  | cons a l ih =>
    have hstep : count + 1 < n → n - count - 1 = n - (count + 1) - 1 + 1 := by omega
    rw [map_cons, choose]
    cases modifier with
    | noDelete =>
      have hlt : count < n := by simpa using h
      simp only [getRetainChoiceFunc, beyond, decide_eq_true_eq] at ih ⊢
      split_ifs with hn
      · simp [← hn]
      · rw [ih (.inl (by omega)), hstep (by omega), drop_succ_cons]
    | full =>
      have hlt : count < n := by simpa using h
      simp only [getRetainChoiceFunc, beyond, decide_eq_true_eq, hfull] at ih ⊢
      cases ha : full a with
      | true =>
        simp only [if_true, filter_cons_of_pos ha]
        split_ifs with hn
        · simp [← hn]
        · rw [ih (.inl (by omega)), hstep (by omega), drop_succ_cons]
      | false => simp [hlt.ne, ha, ih h]
    | findFull =>
      simp only [getRetainChoiceFunc, beyond, Bool.and_eq_true, decide_eq_true_eq, hfull] at ih ⊢
      rw [ih (.inr trivial)]
      by_cases hn : n ≤ count + 1
      · cases ha : full a <;> simp [ha, hn, show n - count - 1 = 0 by omega]
      · rw [if_neg fun h => hn h.1, hstep (by omega), drop_succ_cons]

theorem choose_retain {n : ℕ} (h : 1 ≤ n) (modifier : DeleteModifier) (l : List α) :
    choose (getRetainChoiceFunc n modifier) 0 (l.map f) = (beyond full n l modifier).head?.map f :=
  choose_retain_from hfull (.inl h) l

theorem choose_met (name : Text) (modifier : DeleteModifier) (l : List α) :
    choose (choiceFuncAfterName name modifier) true (l.map f) = (since full l modifier).head?.map f := by
  induction l with
  | nil => cases modifier <;> rfl
  | cons a l ih =>
    rw [map_cons, choose]
    cases modifier <;> cases ha : full a <;> simp_all [choiceFuncAfterName, since]

theorem choose_afterName (name : Text) (modifier : DeleteModifier) (l : List α) :
    choose (choiceFuncAfterName name modifier) false (l.map f) =
      (since full (l.dropWhile fun a => !name.isPrefixOf (f a).name) modifier).head?.map f := by
  induction l with
  | nil => cases modifier <;> rfl
  | cons a l ih =>
    cases ha : name.isPrefixOf (f a).name with
    | false =>
      rw [dropWhile_cons_of_pos (by simp [ha]), ← ih, map_cons, choose]
      simp [choiceFuncAfterName, ha]
    | true =>
      rw [dropWhile_cons_of_neg (by simp [ha]), ← choose_met hfull name, map_cons, choose, choose]
      simp [choiceFuncAfterName, ha]

theorem choose_afterTime (timeLine : ℤ) (modifier : DeleteModifier) (l : List α) :
    choose (choiceFuncAfter timeLine modifier) () (l.map f) =
      (since full (l.filter fun a => timeLine ≤ (f a).backupTime) modifier).head?.map f := by
  induction l with
  | nil => cases modifier <;> rfl
  | cons a l ih =>
    rw [map_cons, choose]
    by_cases htime : timeLine ≤ (f a).backupTime <;> cases modifier <;> cases ha : full a <;>
      simp_all [choiceFuncAfter, since]

end Lists

namespace PgStorage

variable {w : WalSize} (s : PgStorage w) (byTime : Bool) (sort : SliceSort BackupObject)

def isFull (n : PgBackupName w) : Bool := (s.increment n).isNone

def nameOf? (o : BackupObject) : Option (PgBackupName w) := s.names.find? (·.text = o.backupName)

/-- The backups as the first search sees them; the sort decides about equal ones. -/
def newestFirst : List (PgBackupName w) :=
  (sort.sort (fun a b => (s.handler byTime).greater a.name b.name) (s.handler byTime).backups).filterMap
    s.nameOf?

/-- The backups as the second search sees them. -/
def oldestFirst : List (PgBackupName w) :=
  (sort.sort (fun a b => (s.handler byTime).less a.name b.name)
    (sort.sort (fun a b => (s.handler byTime).greater a.name b.name) (s.handler byTime).backups)).filterMap s.nameOf?

/-- The backups from the point on, in this order. -/
def afterPoint (l : List (PgBackupName w)) : Point → List (PgBackupName w)
  | .time timeLine => l.filter fun n => timeLine ≤ s.time byTime n
  | .name start => l.dropWhile fun n => !start.isPrefixOf n.sentinel

variable {s byTime sort} {n : PgBackupName w}

theorem nameOf?_object (hn : n ∈ s.names) : s.nameOf? (s.object byTime n) = some n :=
  find?_text s.names hn

theorem map_filterMap_nameOf? {l : List BackupObject} (h : ∀ o ∈ l, o ∈ (s.handler byTime).backups) :
    (l.filterMap s.nameOf?).map (s.object byTime) = l := by
  induction l with
  | nil => rfl
  | cons o l ih =>
    rw [forall_mem_cons] at h
    obtain ⟨n, hn, rfl⟩ := mem_map.mp h.1
    rw [filterMap_cons_some (nameOf?_object hn), map_cons, ih h.2]

theorem names_perm {l : List BackupObject} (h : l.Perm (s.handler byTime).backups) :
    (l.filterMap s.nameOf?).Perm s.names := by
  rw [← map_perm_map_iff (s.object_injective byTime), map_filterMap_nameOf? fun o ho => h.mem_iff.mp ho]
  exact h

theorem newestFirst_perm : (s.newestFirst byTime sort).Perm s.names := names_perm (sort.perm _ _)

theorem oldestFirst_perm : (s.oldestFirst byTime sort).Perm s.names :=
  names_perm ((sort.perm _ _).trans (sort.perm _ _))

/-- The key of a backup's object. -/
def objectKey (s : PgStorage w) (byTime : Bool) (o : BackupObject) : ℤ ×ₗ ℤ :=
  ((s.nameOf? o).map (s.key byTime)).getD (toLex (0, 0))

theorem objectKey_object (hn : n ∈ s.names) : s.objectKey byTime (s.object byTime n) = s.key byTime n := by
  rw [objectKey, nameOf?_object hn, Option.map_some, Option.getD_some]

theorem less_objectKey {a b : BackupObject} (ha : a ∈ (s.handler byTime).backups)
    (hb : b ∈ (s.handler byTime).backups) : (s.handler byTime).less a.name b.name =
      decide (s.objectKey byTime a < s.objectKey byTime b) := by
  obtain ⟨m, hm, rfl⟩ := mem_map.mp ha
  obtain ⟨n, hn, rfl⟩ := mem_map.mp hb
  rw [objectKey_object hm, objectKey_object hn]
  exact s.less_sentinel byTime hm hn

/-- A sort by the keys, as they are or in the dual order, sorts the backups. -/
theorem names_sorted {K : Type} [LinearOrder K] (order : ℤ ×ₗ ℤ → K) {compare : BackupObject → BackupObject → Bool}
    {l : List BackupObject} (h : l.Perm (s.handler byTime).backups)
    (hcompare : ∀ a ∈ l, ∀ b ∈ l, compare a b = decide (order (s.objectKey byTime a) < order (s.objectKey byTime b))) :
    ((sort.sort compare l).filterMap s.nameOf?).Pairwise
      fun m n => order (s.key byTime m) ≤ order (s.key byTime n) := by
  have hperm := (sort.perm compare l).trans h
  have hsorted := sort.sorted_key hcompare
  rw [← map_filterMap_nameOf? fun o ho => hperm.mem_iff.mp ho, pairwise_map] at hsorted
  refine hsorted.imp_of_mem fun hm hn hle => ?_
  rwa [objectKey_object ((names_perm hperm).mem_iff.mp hm), objectKey_object ((names_perm hperm).mem_iff.mp hn)] at hle

theorem newestFirst_sorted : (s.newestFirst byTime sort).Pairwise fun m n => s.key byTime n ≤ s.key byTime m :=
  names_sorted OrderDual.toDual .rfl fun _ ha _ hb => less_objectKey hb ha

theorem oldestFirst_sorted : (s.oldestFirst byTime sort).Pairwise fun m n => s.key byTime m ≤ s.key byTime n :=
  names_sorted id (sort.perm _ _) fun _ ha _ hb =>
    less_objectKey ((sort.perm _ _).mem_iff.mp ha) ((sort.perm _ _).mem_iff.mp hb)

variable (s byTime sort)

/-- Where the first search may stop. -/
def retainBeyond (modifier : DeleteModifier) (retentionCount : ℕ) : List (PgBackupName w) :=
  beyond s.isFull retentionCount (s.newestFirst byTime sort) modifier

/-- Where the second search may stop. -/
def retainSince (modifier : DeleteModifier) (point : Point) : List (PgBackupName w) :=
  since s.isFull (s.afterPoint byTime (s.oldestFirst byTime sort) point) modifier

/-- The older of the two targets. With a name both must be found. -/
def retainAfterTarget : Point → Option (PgBackupName w) → Option (PgBackupName w) →
    Except DeleteError (Option (PgBackupName w))
  | _, some target1, some target2 =>
    .ok (some (if s.key byTime target1 < s.key byTime target2 then target1 else target2))
  | .name _, _, _ => .error .nilTarget
  | .time _, some target1, none => .ok (some target1)
  | .time _, none, target2 => .ok target2

variable {s byTime sort} {modifier : DeleteModifier} {retentionCount : ℕ} {point : Point}

theorem retainBeyond_sublist :
    (s.retainBeyond byTime sort modifier retentionCount).Sublist (s.newestFirst byTime sort) := by
  cases modifier with
  | noDelete => exact drop_sublist _ _
  | full => exact (drop_sublist _ _).trans filter_sublist
  | findFull => exact filter_sublist.trans (drop_sublist _ _)

theorem mem_retainBeyond (h : n ∈ s.retainBeyond byTime sort modifier retentionCount) : n ∈ s.names :=
  newestFirst_perm.mem_iff.mp (retainBeyond_sublist.mem h)

theorem retainSince_sublist : (s.retainSince byTime sort modifier point).Sublist (s.oldestFirst byTime sort) := by
  have hafter : (s.afterPoint byTime (s.oldestFirst byTime sort) point).Sublist
      (s.oldestFirst byTime sort) := by
    cases point with
    | time timeLine => exact filter_sublist
    | name start => exact (dropWhile_suffix _).sublist
  cases modifier with
  | noDelete => exact hafter
  | full => exact filter_sublist.trans hafter
  | findFull => exact filter_sublist.trans hafter

theorem mem_retainSince (h : n ∈ s.retainSince byTime sort modifier point) : n ∈ s.names :=
  oldestFirst_perm.mem_iff.mp (retainSince_sublist.mem h)

theorem older_object {m : PgBackupName w} (hm : m ∈ s.names) (hn : n ∈ s.names) :
    (if (s.handler byTime).greater (s.object byTime n).name (s.object byTime m).name then s.object byTime m
      else s.object byTime n) =
    s.object byTime (if s.key byTime m < s.key byTime n then m else n) := by
  rw [DeleteHandler.greater, show (s.handler byTime).less (s.object byTime m).name (s.object byTime n).name =
    _ from s.less_sentinel byTime hm hn, apply_ite (s.object byTime)]
  simp only [decide_eq_true_eq]

theorem findBeforeTarget_retainAfter (hcount : 1 ≤ retentionCount) :
    (s.handler byTime).findBeforeTarget sort (.retainAfter modifier retentionCount point) =
      (s.retainAfterTarget byTime point (s.retainBeyond byTime sort modifier retentionCount).head?
        (s.retainSince byTime sort modifier point).head?).map (Option.map (s.object byTime)) := by
  have hmem1 : ∀ m ∈ (s.retainBeyond byTime sort modifier retentionCount).head?, m ∈ s.names :=
    fun m hm => mem_retainBeyond (mem_of_mem_head? hm)
  have hmem2 : ∀ m ∈ (s.retainSince byTime sort modifier point).head?, m ∈ s.names :=
    fun m hm => mem_retainSince (mem_of_mem_head? hm)
  have hfull : ∀ n, (s.object byTime n).isFullBackup = s.isFull n := fun _ => rfl
  have hretain : _ = (s.retainBeyond byTime sort modifier retentionCount).head?.map _ :=
    choose_retain hfull hcount modifier (s.newestFirst byTime sort)
  have hnewest : (s.newestFirst byTime sort).map (s.object byTime) = _ :=
    map_filterMap_nameOf? fun _ ho => (sort.perm _ _).mem_iff.mp ho
  have holdest : (s.oldestFirst byTime sort).map (s.object byTime) = _ :=
    map_filterMap_nameOf? fun _ ho => (sort.perm _ _).mem_iff.mp ((sort.perm _ _).mem_iff.mp ho)
  rw [hnewest] at hretain
  cases point with
  | time timeLine =>
    have hafter : _ = (s.retainSince byTime sort modifier (.time timeLine)).head?.map _ :=
      choose_afterTime hfull timeLine modifier (s.oldestFirst byTime sort)
    rw [holdest] at hafter
    simp only [DeleteHandler.findBeforeTarget, DeleteHandler.findTargetRetainAfterTime, findTarget, hretain, hafter]
    cases h1 : (s.retainBeyond byTime sort modifier retentionCount).head? with
    | none => rfl
    | some m =>
      cases h2 : (s.retainSince byTime sort modifier (.time timeLine)).head? with
      | none => rfl
      | some n =>
        simp only [Option.map_some, older_object (hmem1 m h1) (hmem2 n h2)]
        rfl
  | name start =>
    have hafter : _ = (s.retainSince byTime sort modifier (.name start)).head?.map _ :=
      choose_afterName hfull start modifier (s.oldestFirst byTime sort)
    rw [holdest] at hafter
    simp only [DeleteHandler.findBeforeTarget, DeleteHandler.findTargetRetainAfterName, findTarget, hretain, hafter]
    cases h1 : (s.retainBeyond byTime sort modifier retentionCount).head? with
    | none => rfl
    | some m =>
      cases h2 : (s.retainSince byTime sort modifier (.name start)).head? with
      | none => rfl
      | some n =>
        simp only [Option.map_some, older_object (hmem1 m h1) (hmem2 n h2)]
        rfl

end PgStorage

end WalG.Delete
