import WalG.Delete.RetainChoice

/-! # How many backups a retention keeps

The target is found by counting from the newest backup down, and what the comparison puts before the
target is deleted.
-/
namespace WalG.Delete
open Foundation List

section Kept

variable {α : Type} {less : α → α → Bool} {sorted l newer older : List α} {target : α} {kept : α → Bool}

theorem length_lt_countP_kept (hsorted : sorted.Pairwise fun a b => less a b = false)
    (hself : less target target = false)
    (hkept : ∀ a ∈ sorted, less a target = false → kept a = true) (hl : l.Sublist sorted)
    (hsplit : l = newer ++ target :: older) : newer.length + 1 ≤ l.countP kept := by
  have hpairs := hsorted.sublist hl
  have hmem : ∀ a ∈ newer ++ [target], kept a = true := by
    intro a ha
    have hal : a ∈ l := by
      rw [hsplit]
      rcases mem_append.mp ha with ha | ha
      · exact mem_append_left _ ha
      · exact mem_append_right _ (mem_singleton.mp ha ▸ mem_cons_self)
    refine hkept a (hl.subset hal) ?_
    rcases mem_append.mp ha with ha | ha
    · rw [hsplit] at hpairs
      exact (pairwise_append.mp hpairs).2.2 a ha target mem_cons_self
    · rw [mem_singleton.mp ha]
      exact hself
  calc newer.length + 1 = (newer ++ [target]).countP kept := by
        rw [countP_eq_length.mpr hmem, length_append, length_singleton]
    _ ≤ ((newer ++ [target]) ++ older).countP kept := (sublist_append_left _ _).countP_le
    _ = l.countP kept := by rw [hsplit, append_assoc, singleton_append]

end Kept

theorem strictWeakOn_flip {α : Type} {less : α → α → Bool} {l : List α} (h : StrictWeakOn less l) :
    StrictWeakOn (fun a b => less b a) l where
  irrefl := h.irrefl
  trans a ha b hb c hc hab hbc := h.trans c hc b hb a ha hbc hab
  negTrans a ha b hb c hc hab hbc := h.negTrans c hc b hb a ha hbc hab

theorem eq_append_of_head?_drop {α : Type} {k : ℕ} {l : List α} {a : α} (h : (l.drop k).head? = some a) :
    ∃ newer older, newer.length = k ∧ l = newer ++ a :: older := by
  obtain ⟨older, hdrop⟩ := head?_eq_some_iff.mp h
  have hlen : k ≤ l.length := by
    by_contra hlt
    rw [drop_eq_nil_of_le (not_le.mp hlt).le] at hdrop
    cases hdrop
  refine ⟨l.take k, older, length_take_of_le hlen, ?_⟩
  rw [← hdrop, take_append_drop]

/-- The elements before the one that is found, among all of them or among the full ones. -/
theorem head?_beyond {α : Type} {full : α → Bool} {n : ℕ} {newestFirst : List α} {modifier : DeleteModifier}
    {target : α} (h : (beyond full n newestFirst modifier).head? = some target) : ∃ newer older, n - 1 ≤ newer.length ∧
      (if modifier = .full then newestFirst.filter full else newestFirst) = newer ++ target :: older := by
  cases modifier with
  | noDelete =>
    obtain ⟨newer, older, hlen, hsplit⟩ := eq_append_of_head?_drop h
    exact ⟨newer, older, hlen.ge, hsplit⟩
  | full =>
    obtain ⟨newer, older, hlen, hsplit⟩ := eq_append_of_head?_drop h
    exact ⟨newer, older, hlen.ge, hsplit⟩
  | findFull =>
    have hfirst : (newestFirst.drop (n - 1)).find? full = some target := by rwa [← head?_filter]
    obtain ⟨-, skipped, older, hdrop, -⟩ := find?_eq_some_iff_append.mp hfirst
    have hlen : n - 1 ≤ newestFirst.length := by
      by_contra hlt
      rw [drop_eq_nil_of_le (not_le.mp hlt).le] at hdrop
      exact append_ne_nil_of_right_ne_nil _ (cons_ne_nil _ _) hdrop.symm
    refine ⟨newestFirst.take (n - 1) ++ skipped, older, ?_, ?_⟩
    · rw [length_append, length_take_of_le hlen]
      exact Nat.le_add_right _ _
    · rw [append_assoc, ← hdrop, take_append_drop]
      rfl

section Retain

variable {h : DeleteHandler} {sort : SliceSort BackupObject} {n : ℕ} {modifier : DeleteModifier} {target : BackupObject}

/-- The backups in the order of the search. -/
def newestFirst (h : DeleteHandler) (sort : SliceSort BackupObject) : List BackupObject :=
  sort.sort (fun a b => h.greater a.name b.name) h.backups

theorem newestFirst_sorted (hless : StrictWeakOn (fun a b => h.less a.name b.name) h.backups) :
    (newestFirst h sort).Pairwise fun a b => h.less a.name b.name = false :=
  sort.sorted _ _ (strictWeakOn_flip hless)

theorem head?_beyond_newestFirst (hn : 1 ≤ n) (htarget : h.findTargetRetain sort n modifier = .ok target) :
    (beyond BackupObject.isFullBackup n (newestFirst h sort) modifier).head? = some target := by
  have hchoose : choose (getRetainChoiceFunc n modifier) 0 ((newestFirst h sort).map id) =
      (beyond BackupObject.isFullBackup n (newestFirst h sort) modifier).head?.map id :=
    choose_retain (fun _ => rfl) hn modifier (newestFirst h sort)
  rw [map_id, Option.map_id_fun, id] at hchoose
  rw [DeleteHandler.findTargetRetain] at htarget
  split at htarget
  · cases htarget
  · next found hfound =>
    rw [← hchoose, ← Except.ok.inj htarget]
    exact hfound

end Retain

/-- A retention keeps as many backups as it is told, full ones if it counts these; the comparison with the target
decides about every backup that is not permanent. -/
theorem retain_keeps (h : DeleteHandler) (hless : StrictWeakOn (fun a b => h.less a.name b.name) h.backups)
    (sort : SliceSort BackupObject) (n : ℕ) (hn : 1 ≤ n) (modifier : DeleteModifier) (target : BackupObject)
    (htarget : h.findTargetRetain sort n modifier = .ok target) (path : BackupObject → Text) (objects : List Text)
    (hpath : ∀ b ∈ h.backups, path b ∈ objects ∧ h.less (path b) target.name = h.less b.name target.name)
    (deleted : List Text) (hdeleted : h.deleteBeforeTarget objects target = .ok deleted) :
    n ≤ h.backups.countP (fun b => path b ∉ deleted) ∧
    (modifier = .full → n ≤ h.backups.countP fun b => b.isFullBackup ∧ path b ∉ deleted) ∧
    (∀ b ∈ h.backups, path b ∈ deleted ↔ h.less b.name target.name = true ∧ h.isPermanent (path b) = .ok false) ∧
    target ∈ h.backups ∧ target.isFullBackup = true ∧
    (modifier = .findFull → ∃ newestFirst : List BackupObject, newestFirst.Perm h.backups ∧
      (newestFirst.Pairwise fun a b => h.less a.name b.name = false) ∧
      (newestFirst.drop (n - 1)).find? BackupObject.isFullBackup = some target) := by
  obtain ⟨hfull, hiff⟩ := DeleteHandler.mem_deleteBeforeTarget hdeleted
  have hhead := head?_beyond_newestFirst hn htarget
  have hperm : (newestFirst h sort).Perm h.backups := sort.perm _ _
  have hsorted : (newestFirst h sort).Pairwise fun a b => h.less a.name b.name = false := newestFirst_sorted hless
  have hsplit : ∀ b ∈ h.backups, path b ∈ deleted ↔
      h.less b.name target.name = true ∧ h.isPermanent (path b) = .ok false := by
    intro b hb
    obtain ⟨hmem, heq⟩ := hpath b hb
    rw [hiff, heq, and_iff_right hmem]
  obtain ⟨newer, older, hlen, hsearched⟩ := head?_beyond hhead
  have hsublist : (if modifier = .full then (newestFirst h sort).filter BackupObject.isFullBackup
      else newestFirst h sort).Sublist (newestFirst h sort) := by
    split_ifs
    · exact filter_sublist
    · exact .refl _
  have hmem : target ∈ h.backups := by
    refine hperm.mem_iff.mp (hsublist.subset ?_)
    rw [hsearched]
    exact mem_append_right _ mem_cons_self
  have hkept : ∀ b ∈ newestFirst h sort, h.less b.name target.name = false → decide (path b ∉ deleted) = true := by
    intro b hb hnot
    rw [decide_eq_true_eq, hsplit b (hperm.mem_iff.mp hb), hnot]
    exact fun hfalse => Bool.false_ne_true hfalse.1
  have hcount := length_lt_countP_kept hsorted (hless.irrefl target hmem) hkept hsublist hsearched
  refine ⟨?_, ?_, hsplit, hmem, hfull, ?_⟩
  · have hall := hsublist.countP_le (p := fun b => decide (path b ∉ deleted))
    rw [hperm.countP_eq] at hall
    omega
  · rintro rfl
    rw [if_pos rfl, countP_filter, hperm.countP_eq] at hcount
    refine (show n ≤ newer.length + 1 by omega).trans (hcount.trans (le_of_eq ?_))
    refine countP_congr fun b _ => ?_
    simp [and_comm]
  · rintro rfl
    refine ⟨newestFirst h sort, hperm, hsorted, ?_⟩
    rwa [← head?_filter]

/-- Two full backups, the one with the longer name newer. -/
def twoByLength : DeleteHandler where
  backups := [⟨"b".toList, "b".toList, 0, true, [], []⟩, ⟨"bb".toList, "bb".toList, 0, true, [], []⟩]
  less a b := decide (a.length < b.length)
  isPermanent _ := .ok false

def byLength (b : BackupObject) : ℤ := -(b.name.length : ℤ)

theorem twoByLength_greater (a b : BackupObject) :
    twoByLength.greater a.name b.name = decide (byLength a < byLength b) := by
  refine Bool.decide_congr ?_
  rw [byLength, byLength]
  omega

theorem retain_keeps_twoByLength : ∃ target deleted, twoByLength.findTargetRetain (mergeSlice _) 1 .full = .ok target ∧
    twoByLength.deleteBeforeTarget ["b".toList, "bb".toList] target = .ok deleted ∧ "b".toList ∈ deleted ∧
      1 ≤ twoByLength.backups.countP fun b => b.isFullBackup ∧ b.name ∉ deleted := by
  have hless : StrictWeakOn (fun a b : BackupObject => twoByLength.less a.name b.name) twoByLength.backups :=
    strictWeakOn_flip (strictWeakOn_key fun a _ b _ => twoByLength_greater a b)
  have hsort : (mergeSlice _).sort (fun a b => twoByLength.greater a.name b.name) twoByLength.backups =
      [⟨"bb".toList, "bb".toList, 0, true, [], []⟩, ⟨"b".toList, "b".toList, 0, true, [], []⟩] :=
    SliceSort.sort_eq_of_pairwise (fun a _ b _ => twoByLength_greater a b) _ (.swap _ _ _) (by decide +kernel)
  have htarget : twoByLength.findTargetRetain (mergeSlice _) 1 .full =
      .ok ⟨"bb".toList, "bb".toList, 0, true, [], []⟩ := by
    rw [DeleteHandler.findTargetRetain, findTarget, hsort]
    rfl
  have hdeleted : twoByLength.deleteBeforeTarget ["b".toList, "bb".toList]
      ⟨"bb".toList, "bb".toList, 0, true, [], []⟩ = .ok ["b".toList] := by decide +kernel
  have hpath : ∀ b ∈ twoByLength.backups, b.name ∈ ["b".toList, "bb".toList] ∧
      twoByLength.less b.name "bb".toList = twoByLength.less b.name "bb".toList := by decide +kernel
  exact ⟨_, _, htarget, hdeleted, mem_cons_self,
    (retain_keeps twoByLength hless _ 1 le_rfl .full _ htarget _ _ hpath _ hdeleted).2.1 rfl⟩

end WalG.Delete
