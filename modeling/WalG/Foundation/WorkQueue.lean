import Mathlib.Data.List.Nodup
import Mathlib.Logic.Relation
import Mathlib.Tactic

/-! # A work queue over a forest

A search takes the first node of a queue and appends its children.
-/
namespace WalG.Foundation
open List Relation

variable {α : Type} (children : α → List α)

/-- The nodes in the order they are taken; `none` if the rounds do not suffice. -/
def workQueue : ℕ → List α → Option (List α)
  | _, [] => some []
  | 0, _ :: _ => none
  | rounds + 1, curr :: queue => (workQueue rounds (queue ++ children curr)).map (curr :: ·)

variable {children}

theorem mem_workQueue_iff {rounds : ℕ} {queue found : List α}
    (h : workQueue children rounds queue = some found) (a : α) :
    a ∈ found ↔ ∃ q ∈ queue, ReflTransGen (fun x y => y ∈ children x) q a := by
  induction rounds generalizing queue found with
  | zero =>
    cases queue with
    | nil =>
      cases h
      simp
    | cons q queue => cases h
  | succ rounds ih =>
    cases queue with
    | nil =>
      cases h
      simp
    | cons curr queue =>
      rw [workQueue] at h
      obtain ⟨rest, hrest, rfl⟩ := Option.map_eq_some_iff.mp h
      rw [mem_cons, ih hrest]
      constructor
      · rintro (rfl | ⟨q, hq, hreach⟩)
        · exact ⟨a, mem_cons_self, .refl⟩
        · rcases mem_append.mp hq with hq | hq
          · exact ⟨q, mem_cons_of_mem _ hq, hreach⟩
          · exact ⟨curr, mem_cons_self, hreach.head hq⟩
      · rintro ⟨q, hq, hreach⟩
        rcases mem_cons.mp hq with rfl | hq
        · rcases hreach.cases_head with rfl | ⟨c, hc, hreach⟩
          · exact .inl rfl
          · exact .inr ⟨c, mem_append_right _ hc, hreach⟩
        · exact .inr ⟨q, mem_append_left _ hq, hreach⟩

/-- A finite set closed under children, where no node is the child of two others. -/
structure Forest (children : α → List α) (all : List α) : Prop where
  subset : ∀ x ∈ all, ∀ y ∈ children x, y ∈ all
  nodup : ∀ x ∈ all, (children x).Nodup
  parent : ∀ x ∈ all, ∀ x' ∈ all, ∀ y, y ∈ children x → y ∈ children x' → x = x'

/-- No number of rounds empties a queue with a node that is below itself. -/
theorem workQueue_cycle {rounds : ℕ} {queue : List α} {a : α} (ha : a ∈ queue)
    (hcycle : TransGen (fun x y => y ∈ children x) a a) : workQueue children rounds queue = none := by
  induction rounds generalizing queue a with
  | zero =>
    cases queue with
    | nil => cases ha
    | cons curr queue => rfl
  | succ rounds ih =>
    cases queue with
    | nil => cases ha
    | cons curr queue =>
      rw [workQueue, Option.map_eq_none_iff]
      rcases mem_cons.mp ha with rfl | ha
      · obtain ⟨b, hb, hback⟩ := TransGen.head'_iff.mp hcycle
        exact ih (mem_append_right _ hb) (TransGen.tail' hback hb)
      · exact ih (mem_append_left _ ha) hcycle

section Rounds

variable {all : List α} {root : α}

/-- Between the rounds: nothing is met twice, and everything but the root was
reached from a node taken before. -/
structure QueueInvariant (children : α → List α) (all : List α) (root : α)
    (taken queue : List α) : Prop where
  nodup : (taken ++ queue).Nodup
  subset : ∀ y ∈ taken ++ queue, y ∈ all
  reached : ∀ y ∈ taken ++ queue, y = root ∨ ∃ x ∈ taken, y ∈ children x
  below : ∀ y ∈ taken ++ queue, ReflTransGen (fun x y => y ∈ children x) root y

theorem QueueInvariant.start (hroot : root ∈ all) : QueueInvariant children all root [] [root] where
  nodup := nodup_singleton root
  subset _ hy := mem_singleton.mp hy ▸ hroot
  reached _ hy := .inl (mem_singleton.mp hy)
  below _ hy := mem_singleton.mp hy ▸ .refl

variable (hf : Forest children all) (hcycle : ¬ TransGen (fun x y => y ∈ children x) root root)

include hf hcycle

theorem QueueInvariant.step {taken queue : List α} {curr : α}
    (h : QueueInvariant children all root taken (curr :: queue)) :
    QueueInvariant children all root (taken ++ [curr]) (queue ++ children curr) := by
  have hlist : taken ++ [curr] ++ (queue ++ children curr) =
      (taken ++ curr :: queue) ++ children curr := by simp
  have hmem : curr ∈ taken ++ curr :: queue := by simp
  have hcurr := h.subset curr hmem
  have hfresh : ∀ y ∈ taken ++ curr :: queue, y ∉ children curr := by
    intro y hy hchild
    rcases h.reached y hy with rfl | ⟨x, hx, hxy⟩
    · exact hcycle (TransGen.tail' (h.below curr hmem) hchild)
    · obtain rfl := hf.parent x (h.subset x (mem_append_left _ hx)) curr hcurr y hxy hchild
      exact (nodup_append.mp h.nodup).2.2 x hx x mem_cons_self rfl
  constructor
  · rw [hlist, nodup_append]
    exact ⟨h.nodup, hf.nodup curr hcurr, fun y hy z hz hyz => hfresh y hy (hyz ▸ hz)⟩
  · rw [hlist]
    intro y hy
    rcases mem_append.mp hy with hy | hy
    · exact h.subset y hy
    · exact hf.subset curr hcurr y hy
  · rw [hlist]
    intro y hy
    rcases mem_append.mp hy with hy | hy
    · rcases h.reached y hy with hroot | ⟨x, hx, hxy⟩
      · exact .inl hroot
      · exact .inr ⟨x, mem_append_left _ hx, hxy⟩
    · exact .inr ⟨curr, mem_append_right _ (mem_singleton_self _), hy⟩
  · rw [hlist]
    intro y hy
    rcases mem_append.mp hy with hy | hy
    · exact h.below y hy
    · exact (h.below curr hmem).tail hy

theorem QueueInvariant.ends {rounds : ℕ} {taken queue : List α} (h : QueueInvariant children all root taken queue)
    (hrounds : all.length ≤ taken.length + rounds) : ∃ found, workQueue children rounds queue = some found := by
  induction rounds generalizing taken queue with
  | zero =>
    cases queue with
    | nil => exact ⟨[], rfl⟩
    | cons curr queue =>
      have hle := (h.nodup.subperm h.subset).length_le
      rw [length_append, length_cons] at hle
      omega
  | succ rounds ih =>
    cases queue with
    | nil => exact ⟨[], rfl⟩
    | cons curr queue =>
      obtain ⟨found, hfound⟩ := ih (h.step hf hcycle) (by
        rw [length_append, length_singleton]
        omega)
      exact ⟨curr :: found, by rw [workQueue, hfound, Option.map_some]⟩

theorem QueueInvariant.found_nodup {rounds : ℕ}
    {taken queue found : List α} (h : QueueInvariant children all root taken queue)
    (hfound : workQueue children rounds queue = some found) : (taken ++ found).Nodup := by
  induction rounds generalizing taken queue found with
  | zero =>
    cases queue with
    | nil =>
      cases hfound
      exact h.nodup
    | cons curr queue => cases hfound
  | succ rounds ih =>
    cases queue with
    | nil =>
      cases hfound
      exact h.nodup
    | cons curr queue =>
      rw [workQueue] at hfound
      obtain ⟨rest, hrest, rfl⟩ := Option.map_eq_some_iff.mp hfound
      have hnodup := ih (h.step hf hcycle) hrest
      rwa [append_assoc, singleton_append] at hnodup

/-- One round for each node suffices, unless the root is below itself, and no node is met twice. -/
theorem Forest.workQueue_ends (hroot : root ∈ all) :
    ∃ found, workQueue children all.length [root] = some found ∧ found.Nodup := by
  have hstart : QueueInvariant children all root [] [root] := .start hroot
  obtain ⟨found, hfound⟩ := hstart.ends hf hcycle (by rw [length_nil, Nat.zero_add])
  exact ⟨found, hfound, hstart.found_nodup hf hcycle hfound⟩

end Rounds

end WalG.Foundation
