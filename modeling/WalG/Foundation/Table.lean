import WalG.Foundation.Assoc

/-! # Maps with finitely many keys

The values stand under distinct keys, and a pass over them meets each key once, in an order that is
not specified.
-/
namespace WalG.Foundation
open List

structure Table (K V : Type) where
  entries : List (K × V)
  nodup : (entries.map Prod.fst).Nodup

/-- The order in which a pass over a map meets its keys. -/
structure MapOrder (K : Type) where
  order : List K → List K
  perm : ∀ keys, (order keys).Perm keys

/-- Keys met in the order in which they are given. -/
def MapOrder.given (K : Type) : MapOrder K := ⟨id, fun keys => .refl keys⟩

namespace Table

variable {K V : Type}

def empty : Table K V := ⟨[], nodup_nil⟩

def keys (t : Table K V) : List K := t.entries.map Prod.fst

theorem nodup_filter (t : Table K V) (p : K × V → Bool) : ((t.entries.filter p).map Prod.fst).Nodup :=
  t.nodup.sublist (filter_sublist.map _)

variable [DecidableEq K] (t : Table K V) {k k' : K} {v : V}

def get (k : K) : Option V := t.entries.lookup k

def set (k : K) (v : V) : Table K V where
  entries := (k, v) :: t.entries.filter fun entry => entry.1 ≠ k
  nodup := by
    rw [map_cons, nodup_cons]
    refine ⟨fun hmem => ?_, (t.nodup.sublist (filter_sublist.map _))⟩
    obtain ⟨entry, hentry, rfl⟩ := mem_map.mp hmem
    simp at hentry

/-- Set a value for each element of a list. -/
def setAll {A : Type} (key : A → K) (value : A → V) (elements : List A) : Table K V :=
  elements.foldl (fun t a => t.set (key a) (value a)) t

/-- The table without some keys. -/
def removeAll (removed : List K) : Table K V :=
  ⟨t.entries.filter fun entry => entry.1 ∉ removed, t.nodup_filter _⟩

/-- The entries of another table set over those of this one. -/
def union (other : Table K V) : Table K V := t.setAll Prod.fst Prod.snd other.entries

/-- The value under a key, which is loaded when it is asked for first. -/
def load {E : Type} (loader : K → Except E V) (k : K) : Except E (V × Table K V) :=
  match t.get k with
  | some v => .ok (v, t)
  | none =>
    match loader k with
    | .error e => .error e
    | .ok v => .ok (v, t.set k v)

/-- The values in the order of a pass. -/
def values (order : MapOrder K) : List V := (order.order t.keys).filterMap t.get

@[simp] theorem get_empty : (empty : Table K V).get k = none := rfl

@[simp] theorem get_set_self : (t.set k v).get k = some v := lookup_cons_self

theorem get_set_of_ne (h : k' ≠ k) : (t.set k v).get k' = t.get k' := by
  have hfilter : ∀ l : List (K × V), (l.filter fun entry => entry.1 ≠ k).lookup k' = l.lookup k' := by
    intro l
    induction l with
    | nil => rfl
    | cons entry l ih =>
      by_cases hentry : entry.1 = k
      · rw [filter_cons_of_neg (by simpa using hentry), ih, lookup_cons_of_ne fun heq => h (heq.trans hentry)]
      · rw [filter_cons_of_pos (by simpa using hentry), lookup_cons, lookup_cons, ih]
  rw [get, set, lookup_cons_of_ne h, hfilter]
  rfl

theorem mem_keys_iff : k ∈ t.keys ↔ (t.get k).isSome = true := by
  rw [Option.isSome_iff_exists]
  constructor
  · intro h
    obtain ⟨entry, hentry, rfl⟩ := mem_map.mp h
    exact ⟨_, lookup_eq_some_of_mem t.nodup hentry⟩
  · rintro ⟨v, hv⟩
    exact mem_map_of_mem (mem_of_lookup_eq_some hv)

theorem mem_keys_removeAll {removed : List K} : k ∈ (t.removeAll removed).keys ↔ k ∈ t.keys ∧ k ∉ removed := by
  simp only [keys, removeAll, mem_map, mem_filter, decide_eq_true_eq]
  constructor
  · rintro ⟨entry, ⟨hentry, hnot⟩, rfl⟩
    exact ⟨⟨entry, hentry, rfl⟩, hnot⟩
  · rintro ⟨⟨entry, hentry, rfl⟩, hnot⟩
    exact ⟨entry, ⟨hentry, hnot⟩, rfl⟩

theorem mem_order_iff (order : MapOrder K) : k ∈ order.order t.keys ↔ (t.get k).isSome = true :=
  (order.perm t.keys).mem_iff.trans t.mem_keys_iff

theorem mem_values_iff (order : MapOrder K) : v ∈ t.values order ↔ ∃ k, t.get k = some v := by
  rw [values, mem_filterMap]
  refine exists_congr fun k => and_iff_right_of_imp fun h => ?_
  rw [mem_order_iff, h]
  rfl

theorem load_ok {E : Type} {loader : K → Except E V} {t' : Table K V} (h : t.load loader k = .ok (v, t')) :
    t'.get k = some v ∧ (∀ k', k' ≠ k → t'.get k' = t.get k') ∧
      (t.get k = some v ∨ t.get k = none ∧ loader k = .ok v) := by
  rw [load] at h
  split at h
  · rename_i v' hget
    cases h
    exact ⟨hget, fun _ _ => rfl, .inl hget⟩
  · rename_i hget
    split at h
    · cases h
    · rename_i v' hloader
      cases h
      exact ⟨get_set_self t, fun _ hne => get_set_of_ne t hne, .inr ⟨hget, hloader⟩⟩

variable {t} {A : Type} {key : A → K} {value : A → V} {elements : List A}

theorem get_setAll_eq_none (h : (t.setAll key value elements).get k = none) :
    t.get k = none ∧ ∀ a ∈ elements, key a ≠ k := by
  induction elements generalizing t with
  | nil => exact ⟨h, by simp⟩
  | cons a elements ih =>
    obtain ⟨hset, helements⟩ := ih h
    have hne : k ≠ key a := by
      rintro rfl
      rw [get_set_self] at hset
      cases hset
    rw [get_set_of_ne t hne] at hset
    exact ⟨hset, forall_mem_cons.mpr ⟨hne.symm, helements⟩⟩

theorem get_setAll_eq_some (h : (t.setAll key value elements).get k = some v) :
    (t.get k = some v ∧ ∀ a ∈ elements, key a ≠ k) ∨
      ∃ before a after, elements = before ++ a :: after ∧ key a = k ∧ value a = v ∧ ∀ b ∈ after, key b ≠ k := by
  induction elements generalizing t with
  | nil => exact .inl ⟨h, by simp⟩
  | cons a elements ih =>
    rcases ih h with ⟨hset, helements⟩ | ⟨before, a', after, rfl, hkey, hvalue, hafter⟩
    · by_cases hk : k = key a
      · subst hk
        rw [get_set_self] at hset
        exact .inr ⟨[], a, elements, rfl, rfl, Option.some.inj hset, helements⟩
      · rw [get_set_of_ne t hk] at hset
        exact .inl ⟨hset, forall_mem_cons.mpr ⟨fun heq => hk heq.symm, helements⟩⟩
    · exact .inr ⟨a :: before, a', after, rfl, hkey, hvalue, hafter⟩

theorem get_union (other : Table K V) (k : K) : (t.union other).get k = (other.get k).or (t.get k) := by
  cases hget : (t.union other).get k with
  | none =>
    obtain ⟨hnone, hkeys⟩ := get_setAll_eq_none hget
    cases hother : other.get k with
    | none => rw [hnone, Option.none_or]
    | some v => exact absurd rfl (hkeys _ (mem_of_lookup_eq_some hother))
  | some v =>
    rcases get_setAll_eq_some hget with ⟨hsome, hkeys⟩ | ⟨before, entry, after, hentries, rfl, rfl, -⟩
    · have hother : other.get k = none := by
        rw [← Option.not_isSome_iff_eq_none, ← mem_keys_iff]
        intro hmem
        obtain ⟨entry, hentry, rfl⟩ := mem_map.mp hmem
        exact hkeys entry hentry rfl
      rw [hother, hsome, Option.none_or]
    · have hmem : entry ∈ other.entries := by
        rw [hentries]
        simp
      rw [show other.get entry.1 = some entry.2 from lookup_eq_some_of_mem other.nodup hmem, Option.some_or]

end Table

section Passes

variable {S K V : Type} [DecidableEq K] {view : S → K → V} {step : S → K → S} {f : K → V → V}

/-- A pass over distinct keys, each of whose steps touches its own key only, does one step for each key. -/
theorem view_foldl (hself : ∀ s k, view (step s k) k = f k (view s k))
    (hother : ∀ s k k', k' ≠ k → view (step s k) k' = view s k') {keys : List K} (hnodup : keys.Nodup) (s : S) (k : K) :
    view (keys.foldl step s) k = if k ∈ keys then f k (view s k) else view s k := by
  induction keys generalizing s with
  | nil => rfl
  | cons key keys ih =>
    obtain ⟨hkey, hkeys⟩ := nodup_cons.mp hnodup
    rw [foldl_cons, ih hkeys]
    by_cases hk : k = key
    · subst hk
      rw [if_neg hkey, if_pos mem_cons_self, hself]
    · rw [hother s key k hk]
      simp only [mem_cons, hk, false_or]

end Passes

end WalG.Foundation
