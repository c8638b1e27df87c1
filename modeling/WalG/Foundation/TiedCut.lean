import WalG.Foundation.SliceSort

/-! # Cutting a sorted list at a mark

A list sorted by a key and cut behind its first marked element.
-/
namespace WalG.Foundation
open List

variable {α : Type} (stop : α → Bool)

/-- The elements up to and including the first marked one. -/
def takeThrough : List α → List α
  | [] => []
  | a :: l => if stop a then [a] else a :: takeThrough l

variable {stop}

theorem takeThrough_subset {a : α} {l : List α} (h : a ∈ takeThrough stop l) : a ∈ l := by
  induction l with
  | nil => exact h
  | cons b l ih =>
    rw [takeThrough] at h
    split_ifs at h with hb
    · rw [mem_singleton.mp h]
      exact mem_cons_self
    · rcases mem_cons.mp h with rfl | h
      · exact mem_cons_self
      · exact mem_cons_of_mem _ (ih h)

theorem takeThrough_append {l : List α} (h : ∀ a ∈ l, stop a = false) (l' : List α) :
    takeThrough stop (l ++ l') = l ++ takeThrough stop l' := by
  induction l with
  | nil => rfl
  | cons a l ih =>
    rw [cons_append, takeThrough, h a mem_cons_self, if_neg Bool.false_ne_true,
      ih fun b hb => h b (mem_cons_of_mem _ hb), cons_append]

theorem head_takeThrough (a : α) (l : List α) : (takeThrough stop (a :: l)).head? = some a := by
  rw [takeThrough]
  split_ifs <;> rfl

theorem mem_takeThrough_iff {l l' : List α} {b : α} (hb : b ∉ l) :
    b ∈ takeThrough stop (l ++ b :: l') ↔ ∀ a ∈ l, stop a = false := by
  constructor
  · intro hmem a ha
    induction l with
    | nil => cases ha
    | cons c l ih =>
      rw [mem_cons, not_or] at hb
      rw [cons_append, takeThrough] at hmem
      split_ifs at hmem with hc
      · exact absurd (mem_singleton.mp hmem) hb.1
      · rcases mem_cons.mp ha with rfl | ha
        · exact Bool.eq_false_iff.mpr hc
        · exact ih hb.2 ((mem_cons.mp hmem).resolve_left hb.1) ha
  · intro h
    rw [takeThrough_append h]
    exact mem_append_right _ (mem_of_mem_head? (head_takeThrough b l'))

variable {K : Type*} [LinearOrder K] (key : α → K)

abbrev SortedBy (l : List α) : Prop := l.Pairwise fun a b => key a ≤ key b

theorem le_getLast_of_sortedBy {key : α → K} {l : List α} (hl : SortedBy key l) {last : α}
    (hlast : l.getLast? = some last) : ∀ a ∈ l, key a ≤ key last := by
  induction l using reverseRecOn with
  | nil => cases hlast
  | append_singleton l b _ =>
    rw [getLast?_concat, Option.some.injEq] at hlast
    rw [hlast] at hl ⊢
    intro a ha
    rcases mem_append.mp ha with ha | ha
    · exact (pairwise_append.mp hl).2.2 a ha last mem_cons_self
    · rw [mem_singleton.mp ha]

/-- Different elements with one key come behind a marked element. -/
def TiesBehind (stop : α → Bool) (l : List α) : Prop :=
  ∀ a ∈ l, ∀ b ∈ l, a ≠ b → key a = key b → ∃ c ∈ l, stop c = true ∧ key c < key a

variable {key}

theorem takeThrough_eq_of_perm {l l' : List α} (hl : SortedBy key l) (hl' : SortedBy key l')
    (hperm : l'.Perm l) (hties : TiesBehind key stop l) : takeThrough stop l' = takeThrough stop l := by
  induction l generalizing l' with
  | nil => rw [hperm.eq_nil]
  | cons a l ih =>
    cases l' with
    | nil => cases hperm.nil_eq
    | cons b l' =>
      have ha := (pairwise_cons.mp hl).1
      have hb := (pairwise_cons.mp hl').1
      have hleast : ∀ c ∈ a :: l, key a ≤ key c := forall_mem_cons.mpr ⟨le_rfl, ha⟩
      have hleast' : ∀ c ∈ b :: l', key b ≤ key c := forall_mem_cons.mpr ⟨le_rfl, hb⟩
      have hab : a = b := by
        by_contra hne
        have hbmem := hperm.mem_iff.mp (mem_cons_self : b ∈ b :: l')
        have heq := le_antisymm (hleast b hbmem) (hleast' a (hperm.mem_iff.mpr mem_cons_self))
        obtain ⟨c, hc, -, hlt⟩ := hties a mem_cons_self b hbmem hne heq
        exact (hleast c hc).not_gt hlt
      subst hab
      rw [takeThrough, takeThrough]
      split_ifs with hstop
      · rfl
      · rw [ih hl.of_cons hl'.of_cons hperm.cons_inv]
        intro c hc d hd hne heq
        obtain ⟨e, he, hmark, hlt⟩ :=
          hties c (mem_cons_of_mem _ hc) d (mem_cons_of_mem _ hd) hne heq
        rcases mem_cons.mp he with rfl | he
        · exact absurd hmark hstop
        · exact ⟨e, he, hmark, hlt⟩

/-- A sorted list splits at a key; a tie there is at the front of the second part. -/
theorem exists_split_of_tie {l : List α} (hl : SortedBy key l) {a b : α} (ha : a ∈ l) (hb : b ∈ l)
    (hne : a ≠ b) (heq : key a = key b) :
    ∃ front c d rest, l = front ++ c :: d :: rest ∧ (∀ e ∈ front, key e < key a) ∧ key c = key a ∧
      key d = key a := by
  induction l with
  | nil => cases ha
  | cons c l ih =>
    have hc := (pairwise_cons.mp hl).1
    by_cases hlt : key c < key a
    · have ha' : a ∈ l := by
        rcases mem_cons.mp ha with rfl | ha
        · exact absurd hlt (lt_irrefl _)
        · exact ha
      have hb' : b ∈ l := by
        rcases mem_cons.mp hb with rfl | hb
        · rw [heq] at hlt
          exact absurd hlt (lt_irrefl _)
        · exact hb
      obtain ⟨front, d, e, rest, rfl, hfront, hd, he⟩ := ih hl.of_cons ha' hb'
      exact ⟨c :: front, d, e, rest, rfl, forall_mem_cons.mpr ⟨hlt, hfront⟩, hd, he⟩
    · have hle : ∀ e ∈ c :: l, key a ≤ key e := by
        intro e he
        rcases mem_cons.mp he with rfl | he
        · exact not_lt.mp hlt
        · exact (not_lt.mp hlt).trans (hc e he)
      have hupper : ∃ e ∈ l, key e = key a := by
        rcases mem_cons.mp ha with rfl | ha
        · exact ⟨b, (mem_cons.mp hb).resolve_left hne.symm, heq.symm⟩
        · exact ⟨a, ha, rfl⟩
      obtain ⟨e, he, hkey⟩ := hupper
      cases l with
      | nil => cases he
      | cons d rest =>
        have hde : key d ≤ key a := by
          rw [← hkey]
          rcases mem_cons.mp he with rfl | he
          · exact le_rfl
          · exact (pairwise_cons.mp hl.of_cons).1 e he
        refine ⟨[], c, d, rest, rfl, nofun, ?_, ?_⟩
        · exact le_antisymm ((hc e he).trans_eq hkey) (hle c mem_cons_self)
        · exact le_antisymm hde (hle d (mem_cons_of_mem _ mem_cons_self))

/-- The cut is the same for every sorted order exactly if all ties come behind a mark. -/
theorem takeThrough_perm_iff {l : List α} (hl : SortedBy key l) (hnodup : l.Nodup) :
    (∀ l', SortedBy key l' → l'.Perm l → takeThrough stop l' = takeThrough stop l) ↔
      TiesBehind key stop l := by
  refine ⟨fun h a ha b hb hne heq => ?_, fun h l' hl' hperm => takeThrough_eq_of_perm hl hl' hperm h⟩
  obtain ⟨front, c, d, rest, rfl, hfront, hc, hd⟩ := exists_split_of_tie hl ha hb hne heq
  by_contra hnone
  have hunmarked : ∀ e ∈ front, stop e = false := by
    intro e he
    by_contra hmark
    exact hnone ⟨e, mem_append_left _ he, Bool.not_eq_false _ ▸ hmark, hfront e he⟩
  have hswap : (front ++ d :: c :: rest).Perm (front ++ c :: d :: rest) :=
    (Perm.swap c d rest).append_left front
  have hsorted : SortedBy key (front ++ d :: c :: rest) := by
    simp only [SortedBy, pairwise_append, pairwise_cons, mem_cons, forall_eq_or_imp, hc, hd] at hl ⊢
    obtain ⟨hfront', ⟨⟨-, hcrest⟩, hdrest, hrest⟩, hcross⟩ := hl
    exact ⟨hfront', ⟨⟨le_rfl, hdrest⟩, hcrest, hrest⟩, hcross⟩
  have hcut := h _ hsorted hswap
  rw [takeThrough_append hunmarked, takeThrough_append hunmarked, append_cancel_left_eq] at hcut
  have hcd : d = c := by
    have hhead := congrArg head? hcut
    rw [head_takeThrough, head_takeThrough] at hhead
    exact Option.some.inj hhead
  rw [nodup_append, hcd] at hnodup
  exact (nodup_cons.mp hnodup.2.1).1 mem_cons_self

end WalG.Foundation
