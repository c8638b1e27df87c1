import Mathlib.Data.List.Nodup

/-! # Association lists without repeated keys -/
namespace WalG.Foundation
open List

variable {K V : Type*} [BEq K] [LawfulBEq K] {l : List (K × V)} {k : K} {v : V}

theorem lookup_eq_none_of_notMem (h : k ∉ l.map Prod.fst) : l.lookup k = none := by
  rw [lookup_eq_none_iff]
  intro p hp
  rw [bne_iff_ne]
  rintro rfl
  exact h (mem_map_of_mem hp)

theorem lookup_cons_of_ne {p : K × V} (h : k ≠ p.1) (l : List (K × V)) : (p :: l).lookup k = l.lookup k := by
  rw [lookup_cons, beq_eq_false_iff_ne.mpr h]

theorem lookup_eq_some_of_mem (hnd : (l.map Prod.fst).Nodup) {p : K × V} (hp : p ∈ l) : l.lookup p.1 = some p.2 := by
  induction l with
  | nil => simp at hp
  | cons q l ih =>
    rw [map_cons, nodup_cons] at hnd
    rcases mem_cons.mp hp with rfl | hp
    · exact lookup_cons_self
    · rw [lookup_cons_of_ne (fun h => hnd.1 (h ▸ mem_map_of_mem hp)), ih hnd.2 hp]

theorem mem_of_lookup_eq_some (h : l.lookup k = some v) : (k, v) ∈ l := by
  induction l with
  | nil => cases h
  | cons q l ih =>
    by_cases hk : k = q.1
    · subst hk
      obtain rfl : q.2 = v := Option.some.inj (lookup_cons_self.symm.trans h)
      exact mem_cons_self
    · rw [lookup_cons_of_ne hk] at h
      exact mem_cons_of_mem _ (ih h)

theorem lookup_eq_some_iff_mem (hnd : (l.map Prod.fst).Nodup) : l.lookup k = some v ↔ (k, v) ∈ l :=
  ⟨mem_of_lookup_eq_some, fun h => lookup_eq_some_of_mem hnd h⟩

theorem filterMap_map_sublist {A B K : Type} {f : A → Option B} {g : B → K} {h : A → K}
    (hf : ∀ a b, f a = some b → g b = h a) (l : List A) : Sublist ((l.filterMap f).map g) (l.map h) := by
  induction l with
  | nil => exact .slnil
  | cons a l ih =>
    cases ha : f a with
    | none =>
      rw [filterMap_cons_none ha]
      exact ih.cons _
    | some b =>
      rw [filterMap_cons_some ha, map_cons, map_cons, hf a b ha]
      exact ih.cons_cons _

end WalG.Foundation
