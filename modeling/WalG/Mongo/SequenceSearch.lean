import WalG.Mongo.Sequence

/-! # What the search for a sequence finds

Whatever the archives are, a sequence that is found links the two timestamps. Of archives that
compete for one place only one is looked at, so a sequence is missed if all of them have a hidden archive.
-/
namespace WalG.Mongo
open Foundation List

/-- Oplog archives of which the first has the timestamp, each ends where the next one starts and the last is given. -/
inductive Linked (archives : List Archive) (since : Timestamp) : List Archive → Archive → Prop
  | first {a} : a ∈ archives → a.type = .oplog → a.isIn since → Linked archives since [a] a
  | next {path b a} : Linked archives since path b → a ∈ archives → a.type = .oplog → b.endTS = a.startTS →
      Linked archives since (path ++ [a]) a

variable {archives path : List Archive} {since until_ : Timestamp} {a : Archive}

def oplogs (archives : List Archive) : List Archive := archives.filter fun a => a.type = .oplog

@[simp] theorem mem_oplogs : a ∈ oplogs archives ↔ a ∈ archives ∧ a.type = .oplog := by
  simp [oplogs]

/-- No rival hides an archive of the path: the last one is listed first of those that have the last timestamp, and
each of the others last of those with its end. -/
structure Unhidden (archives : List Archive) (until_ : Timestamp) (path : List Archive) : Prop where
  last : path.getLast? = (oplogs archives).find? fun a => a.isIn until_
  ends : ∀ b ∈ path.dropLast, lastWithEnd (oplogs archives) b.endTS = some b

theorem sequenceBetweenTS_oplogs (hle : since ≤ until_) :
    sequenceBetweenTS archives since until_ =
      match (oplogs archives).find? fun a => a.isIn until_ with
      | none => .error .untilNotFound
      | some seqEnd => walkBack (lastWithEnd (oplogs archives)) since (archives.length + 1) seqEnd [] := by
  have hindex : indexArchives archives until_ = indexArchives (oplogs archives) until_ := by
    rw [indexArchives, indexArchives, oplogs, foldl_filter]
    congr 1
    funext idx arch
    by_cases h : arch.type = .oplog <;> simp [indexArchive, h]
  have horder : ¬ lessTS until_ since := by simpa using hle
  have hoplogs := @indexArchives_eq (oplogs archives) until_ fun a ha => (mem_oplogs.mp ha).2
  cases hfind : (oplogs archives).find? fun a => a.isIn until_ <;>
    simp only [sequenceBetweenTS, if_neg horder, hindex, hoplogs, hfind]

theorem walkBack_linked {steps : ℕ} {rest : List Archive} (ha : a ∈ oplogs archives)
    (h : walkBack (lastWithEnd (oplogs archives)) since steps a rest = .ok path) :
    ∃ front, path = front ++ [a] ++ rest.reverse ∧ Linked archives since (front ++ [a]) a ∧
      ∀ b ∈ front, lastWithEnd (oplogs archives) b.endTS = some b := by
  induction steps generalizing a rest with
  | zero => simp [walkBack] at h
  | succ steps ih =>
    obtain ⟨hmem, htype⟩ := mem_oplogs.mp ha
    rw [walkBack] at h
    by_cases hin : a.isIn since
    · simp only [hin, if_true, Except.ok.injEq] at h
      exact ⟨[], by simp [← h], .first hmem htype hin, by simp⟩
    · simp only [hin] at h
      cases hb : lastWithEnd (oplogs archives) a.startTS with
      | none => simp [hb] at h
      | some b =>
        obtain ⟨hbmem, hbend⟩ := lastWithEnd_mem hb
        simp only [hb] at h
        obtain ⟨front, hpath, hfront, hends⟩ := ih hbmem h
        refine ⟨front ++ [b], by simp [hpath], hfront.next hmem htype hbend, ?_⟩
        exact forall_mem_append.mpr ⟨hends, forall_mem_singleton.mpr (hbend ▸ hb)⟩

namespace Linked

theorem mem_path (h : Linked archives since path a) : a ∈ path := by
  cases h with
  | first _ _ _ => exact mem_cons_self
  | next _ _ _ _ => exact mem_append_right _ (mem_singleton_self _)

/-- The walk goes back along archives that are listed last of those with their ends. One of a single operation leads
back to itself, so the path goes on without it. -/
theorem walkBack_ok (h : Linked archives since path a)
    (hends : ∀ b ∈ path, lastWithEnd (oplogs archives) b.endTS = some b) {steps : ℕ}
    (hsteps : ((oplogs archives).countP fun b => b.endTS ≤ a.endTS) ≤ steps) (rest : List Archive) :
    ∃ found, walkBack (lastWithEnd (oplogs archives)) since steps a rest = .ok found := by
  induction h generalizing steps rest with
  | @first a ha htype hin =>
    have hpos : 0 < (oplogs archives).countP fun b => b.endTS ≤ a.endTS :=
      countP_pos_iff.mpr ⟨a, mem_oplogs.mpr ⟨ha, htype⟩, by simp⟩
    obtain ⟨steps, rfl⟩ := Nat.exists_eq_add_of_le' (hpos.trans_le hsteps)
    exact ⟨_, by simp only [walkBack, hin, if_true]; rfl⟩
  | @next path b a hb ha htype hend ih =>
    rw [forall_mem_append] at hends
    have hlook := hends.1 b hb.mem_path
    rcases a.start_le_end.lt_or_eq with hproper | hone
    · have hcount := countP_start_lt (mem_oplogs.mpr ⟨ha, htype⟩) hproper
      rw [← hend] at hcount
      obtain ⟨steps, rfl⟩ : ∃ k, steps = k + 1 := ⟨steps - 1, by omega⟩
      by_cases hin : a.isIn since
      · exact ⟨_, by simp only [walkBack, hin, if_true]; rfl⟩
      · simp only [walkBack, hin, ← hend, hlook]
        exact ih hends.1 (by omega) _
    · obtain rfl : b = a := Option.some.inj
        (hlook.symm.trans ((hend.trans hone) ▸ hends.2 a (mem_singleton_self _)))
      exact ih hends.1 hsteps rest

end Linked

theorem sequence_linked (hle : since ≤ until_) (h : sequenceBetweenTS archives since until_ = .ok path) :
    ∃ a, Linked archives since path a ∧ a.isIn until_ ∧ Unhidden archives until_ path := by
  rw [sequenceBetweenTS_oplogs hle] at h
  cases hfind : (oplogs archives).find? fun a => a.isIn until_ with
  | none => simp [hfind] at h
  | some seqEnd =>
    simp only [hfind] at h
    obtain ⟨front, rfl, hlinked, hends⟩ := walkBack_linked (mem_of_find?_eq_some hfind) h
    rw [reverse_nil, append_nil]
    exact ⟨seqEnd, hlinked, by simpa using find?_some hfind, by simp [hfind], by simpa using hends⟩

theorem sequence_found (hle : since ≤ until_) (h : Linked archives since path a)
    (hunhidden : Unhidden archives until_ path) : ∃ found, sequenceBetweenTS archives since until_ = .ok found := by
  rw [sequenceBetweenTS_oplogs hle, ← hunhidden.last]
  cases h with
  | first _ _ hin => exact ⟨_, by simp only [getLast?_singleton, walkBack, hin, if_true]; rfl⟩
  | @next path b _ hb ha htype hend =>
    have hends : ∀ c ∈ path, lastWithEnd (oplogs archives) c.endTS = some c := by simpa using hunhidden.ends
    simp only [getLast?_append, getLast?_singleton, Option.some_or, walkBack, ← hend, hends b hb.mem_path]
    split_ifs
    · exact ⟨_, rfl⟩
    · exact hb.walkBack_ok hends (countP_le_length.trans (length_filter_le _ _)) _

/-- Every sequence that is found links the timestamps; and one is found whenever archives link them, if and only if
then some that are not hidden link them. -/
theorem sequenceBetweenTS_finds_iff (archives : List Archive) {since until_ : Timestamp} (hle : since ≤ until_) :
    (∀ path, sequenceBetweenTS archives since until_ = .ok path → ∃ a, Linked archives since path a ∧ a.isIn until_) ∧
      (((∃ path, sequenceBetweenTS archives since until_ = .ok path) ↔
          ∃ path a, Linked archives since path a ∧ a.isIn until_) ↔
        ((∃ path a, Linked archives since path a ∧ a.isIn until_) →
          ∃ path a, Linked archives since path a ∧ a.isIn until_ ∧ Unhidden archives until_ path)) := by
  have hsound : ∀ path, sequenceBetweenTS archives since until_ = .ok path →
      ∃ a, Linked archives since path a ∧ a.isIn until_ := by
    intro path h
    obtain ⟨a, hlinked, hin, -⟩ := sequence_linked hle h
    exact ⟨a, hlinked, hin⟩
  refine ⟨hsound, fun h hlinked => ?_, fun h => ⟨fun ⟨path, hpath⟩ => ⟨path, hsound path hpath⟩, fun hlinked => ?_⟩⟩
  · obtain ⟨path, hpath⟩ := h.mpr hlinked
    exact ⟨path, sequence_linked hle hpath⟩
  · obtain ⟨path, a, hlinked, -, hunhidden⟩ := h hlinked
    exact sequence_found hle hlinked hunhidden

/-- An archive of the seconds after `start` up to `stop`. -/
def seconds (start stop : ℕ) (h : start ≤ stop) : Archive :=
  ⟨⟨start, 0⟩, ⟨stop, 0⟩, [], .oplog, by
    rw [← not_lt, Timestamp.lt_iff]
    dsimp only
    omega⟩

/-- Listed last, the longer one of two archives with one end hides the shorter one. -/
theorem sequenceBetweenTS_finds_longer :
    ∃ path, sequenceBetweenTS [seconds 3 5 (by decide), seconds 1 5 (by decide), seconds 5 9 (by decide)]
      ⟨2, 0⟩ ⟨8, 0⟩ = .ok path := by
  have hlinked : Linked [seconds 3 5 (by decide), seconds 1 5 (by decide), seconds 5 9 (by decide)] ⟨2, 0⟩
      [seconds 1 5 (by decide), seconds 5 9 (by decide)] (seconds 5 9 (by decide)) :=
    .next (.first (by simp) rfl (by decide)) (by simp) rfl rfl
  refine ((sequenceBetweenTS_finds_iff _ (by decide)).2.mpr fun _ => ?_).mpr ⟨_, _, hlinked, by decide⟩
  exact ⟨_, _, hlinked, by decide, by decide, by decide⟩

/-- The second archive hides the first one, which ends at the same time. -/
theorem sequenceBetweenTS_misses :
    sequenceBetweenTS [seconds 1 5 (by decide), seconds 3 5 (by decide), seconds 5 9 (by decide)] ⟨2, 0⟩ ⟨8, 0⟩ =
        .error (.previousNotExist ⟨3, 0⟩) ∧
      Linked [seconds 1 5 (by decide), seconds 3 5 (by decide), seconds 5 9 (by decide)] ⟨2, 0⟩
        [seconds 1 5 (by decide), seconds 5 9 (by decide)] (seconds 5 9 (by decide)) ∧
      (seconds 5 9 (by decide)).isIn ⟨8, 0⟩ :=
  ⟨by decide, .next (.first (by simp) rfl (by decide)) (by simp) rfl rfl, by decide⟩

end WalG.Mongo
