import WalG.Tarball.UploadRun

/-! # A streamed base backup keeps and lists every file

An upload should put every entry into its tars, list every regular file and copy exactly the named
entries.
-/
namespace WalG.Tarball
open Foundation List

variable (c : Config) (entries : List Entry)

/-- Enough reads for all entries, if their buffers are not empty. -/
def uploadWork : ℕ := (newTarballStreamer entries).work + 1

/-- Every entry is in the tars once, every regular file is listed, and the tee tar holds
exactly the named entries. -/
structure Streamed (t : Transcript) : Prop where
  ended : t.status = .ended
  tars : (t.tars.flatMap entriesOf).Perm (entries.map c.out)
  files : ∀ e ∈ entries, e.isDir = false → c.path e ∈ t.streamer.files.map Prod.fst
  tee : (entriesOf t.streamer.teeIo).Perm ((entries.filter c.inTee).map c.out)

/-- An entry that opens a tar is not named for the copy, is listed through another entry
if it is a file, and has no data if the last entry added before it is copied. -/
structure Harmless (before : List (Entry × Bool)) (e : Entry) : Prop where
  tee : c.inTee e = false
  files : e.isDir = false → c.path e ∈ listed c (splitPlan c 0 entries)
  data : lastTeed c before = true → e.data = []

variable {c entries} {t : Transcript}

theorem idle_start : Idle c entries [] (newTarballStreamer entries) [] [] where
  running := rfl
  plan := rfl
  header := rfl
  remaining := rfl
  buffer := le_rfl
  out := rfl
  writer := nofun
  fresh := fun _ => rfl
  files := fun _ => Iff.rfl
  teeing := rfl
  tee := rfl
  teeWriter := rfl
  clean := fun _ _ _ heq => absurd heq.symm (append_ne_nil_of_right_ne_nil _ (cons_ne_nil _ _))

theorem readNext_stopped (h : t.status ≠ .reading) (n : ℕ) : t.readNext c n = t := by
  rw [Transcript.readNext]
  split
  · exact absurd (by assumption) h
  · rfl

theorem foldl_stopped (h : t.status ≠ .reading) (sizes : List ℕ) : sizes.foldl (Transcript.readNext c) t = t := by
  induction sizes with
  | nil => rfl
  | cons n sizes ih => rw [foldl_cons, readNext_stopped h, ih]

/-- Reads come to an end if enough of their buffers are not empty. -/
theorem Position.run (h : Position c entries t) {sizes : List ℕ} (hwork : t.streamer.work < sizes.countP (0 < ·)) :
    Position c entries (sizes.foldl (Transcript.readNext c) t) ∧
      (sizes.foldl (Transcript.readNext c) t).status ≠ .reading := by
  induction sizes generalizing t with
  | nil => exact absurd hwork (Nat.not_lt_zero _)
  | cons n sizes ih =>
    obtain ⟨hnext, hless⟩ := h.step (n := n)
    rw [foldl_cons]
    by_cases hreading : (t.readNext c n).status = .reading
    · refine ih hnext ?_
      have hle := hless hreading
      rw [countP_cons] at hwork
      simp only [decide_eq_true_eq] at hwork
      split_ifs at hwork <;> omega
    · rw [foldl_stopped hreading]
      exact ⟨hnext, hreading⟩

theorem upload_ends {sizes : List ℕ} (hwork : uploadWork entries ≤ sizes.countP (0 < ·)) :
    Position c entries (upload c entries sizes) ∧ (upload c entries sizes).status ≠ .reading :=
  (Position.idle idle_start).run hwork

theorem mem_plan {e : Entry} (he : e ∈ entries) : ∃ split, (e, split) ∈ splitPlan c 0 entries := by
  rw [← splitPlan_entries (c := c) 0 entries] at he
  obtain ⟨⟨e, split⟩, hmem, rfl⟩ := mem_map.mp he
  exact ⟨split, hmem⟩

theorem teed_eq_of_none {done : List (Entry × Bool)} (h : ∀ e, (e, true) ∈ done → c.inTee e = false) :
    teed c done = ((done.map Prod.fst).filter c.inTee).map c.out := by
  induction done using reverseRecOn with
  | nil => rfl
  | append_singleton done d ih =>
    have hdone := ih fun e he => h e (mem_append_left _ he)
    obtain ⟨e, split⟩ := d
    rw [map_append, filter_append, map_append, ← hdone]
    cases split with
    | true =>
      have hno := h e (mem_append_right _ mem_cons_self)
      rw [teed_concat_true, map_singleton, filter_singleton, hno]
      exact (append_nil _).symm
    | false =>
      rw [teed_concat_false, map_singleton, filter_singleton]
      cases c.inTee e <;> rfl

theorem length_teed_le (done : List (Entry × Bool)) :
    (teed c done).length ≤ ((done.map Prod.fst).filter c.inTee).length := by
  induction done using reverseRecOn with
  | nil => exact le_rfl
  | append_singleton done d ih =>
    obtain ⟨e, split⟩ := d
    rw [map_append, filter_append, length_append]
    cases split with
    | true =>
      rw [teed_concat_true]
      exact ih.trans (Nat.le_add_right _ _)
    | false =>
      rw [teed_concat_false, length_append, map_singleton, filter_singleton]
      cases c.inTee e with
      | true => exact Nat.add_le_add_right ih 1
      | false => exact ih

/-- An entry that is named but opens a tar is missing in the copy. -/
theorem length_teed_lt {before after : List (Entry × Bool)} {e : Entry} (he : c.inTee e = true) :
    (teed c (before ++ (e, true) :: after)).length <
      (((before ++ (e, true) :: after).map Prod.fst).filter c.inTee).length := by
  induction after using reverseRecOn with
  | nil =>
    rw [teed_concat_true, map_append, filter_append, length_append, map_singleton, filter_singleton, he]
    exact Nat.lt_succ_of_le (length_teed_le before)
  | append_singleton after d ih =>
    obtain ⟨e', split⟩ := d
    rw [← cons_append, ← append_assoc, map_append, filter_append, length_append]
    cases split with
    | true =>
      rw [teed_concat_true]
      exact ih.trans_le (Nat.le_add_right _ _)
    | false =>
      rw [teed_concat_false, length_append, map_singleton, filter_singleton]
      cases c.inTee e' with
      | true => exact Nat.add_lt_add_right ih 1
      | false => exact ih

theorem harmless_of_streamed (h : Position c entries t) (hs : Streamed c entries t)
    {before after : List (Entry × Bool)} {e : Entry}
    (hplan : splitPlan c 0 entries = before ++ (e, true) :: after) : Harmless c entries before e := by
  cases h with
  | idle h => cases hs.ended
  | filling h hrest => cases hs.ended
  | waiting h => cases hs.ended
  | failed dirty => cases hs.ended
  | ended out files tee clean =>
    refine ⟨?_, fun hdir => ?_, clean before e after hplan⟩
    · by_contra hin
      have hlt := @length_teed_lt c before after e (Bool.not_eq_false _ ▸ hin)
      have hlen := hs.tee.length_eq
      rw [tee, length_map, hplan] at hlen
      rw [← hplan, splitPlan_entries, hplan] at hlt
      omega
    · have hmem : e ∈ entries := by
        rw [← splitPlan_entries (c := c) 0 entries, hplan, map_append]
        exact mem_append_right _ mem_cons_self
      exact (files _).mp (hs.files e hmem hdir)

theorem streamed_of_harmless (h : Position c entries t) (hstatus : t.status ≠ .reading)
    (hall : ∀ before e after, splitPlan c 0 entries = before ++ (e, true) :: after →
      Harmless c entries before e) : Streamed c entries t := by
  cases h with
  | idle h => exact absurd rfl hstatus
  | filling h hrest => exact absurd rfl hstatus
  | waiting h => exact absurd rfl hstatus
  | failed dirty => exact absurd (fun before e after hplan => (hall before e after hplan).data) dirty
  | ended out files tee clean =>
    refine ⟨rfl, ?_, fun e he hdir => (files _).mpr ?_, ?_⟩
    · have hmap : (splitPlan c 0 entries).map (fun d => c.out d.1) = entries.map c.out := by
        rw [← splitPlan_entries (c := c) 0 entries, map_map, splitPlan_entries]
        rfl
      rw [out, written, hmap]
    · obtain ⟨split, hmem⟩ := mem_plan (c := c) he
      cases split with
      | true =>
        obtain ⟨before, after, hplan⟩ := append_of_mem hmem
        exact (hall before e after hplan).files hdir
      | false =>
        have hadded : e ∈ added (splitPlan c 0 entries) :=
          mem_map_of_mem (mem_filter.mpr ⟨hmem, rfl⟩)
        refine mem_map_of_mem (mem_filter.mpr ⟨hadded, ?_⟩)
        rw [hdir]
        rfl
    · have hnone : ∀ e, (e, true) ∈ splitPlan c 0 entries → c.inTee e = false := by
        intro e hmem
        obtain ⟨before, after, hplan⟩ := append_of_mem hmem
        exact (hall before e after hplan).tee
      rw [tee, teed_eq_of_none hnone, splitPlan_entries]

theorem le_countP_replicate (n : ℕ) : n ≤ (replicate n 1).countP (0 < ·) := by
  rw [countP_replicate]
  rfl

/-- Enough reads stream all entries exactly if every entry that opens a tar is harmless. -/
theorem upload_streamed_iff (c : Config) (entries : List Entry) :
    (∀ sizes : List ℕ, uploadWork entries ≤ sizes.countP (0 < ·) → Streamed c entries (upload c entries sizes)) ↔
    ∀ before e after, splitPlan c 0 entries = before ++ (e, true) :: after → Harmless c entries before e := by
  constructor
  · intro h before e after hplan
    have hwork := le_countP_replicate (uploadWork entries)
    exact harmless_of_streamed (upload_ends hwork).1 (h _ hwork) hplan
  · intro hall sizes hwork
    obtain ⟨h, hstatus⟩ := @upload_ends c entries sizes hwork
    exact streamed_of_harmless h hstatus hall

theorem Position.ended_of_clean (h : Position c entries t) (hstatus : t.status ≠ .reading)
    (hclean : Clean c (splitPlan c 0 entries)) :
    t.status = .ended ∧
      ∀ path, path ∈ t.streamer.files.map Prod.fst ↔ path ∈ listed c (splitPlan c 0 entries) := by
  cases h with
  | idle h => exact absurd rfl hstatus
  | filling h hrest => exact absurd rfl hstatus
  | waiting h => exact absurd rfl hstatus
  | failed dirty => exact absurd hclean dirty
  | ended out files tee clean => exact ⟨rfl, files⟩

section TwoFiles

def twoBytes : Entry := ⟨"a".toList, false, 0, [1, 2], fun h => (nomatch h)⟩

def threeBytes : Entry := ⟨"b".toList, false, 0, [3, 4, 5], fun h => (nomatch h)⟩

/-- The upload of two files, one byte a read, ends, but the second file opens a tar and is not in the list. -/
theorem twoFiles_not_listed :
    (upload ⟨4, [], []⟩ [twoBytes, threeBytes] (.replicate (uploadWork [twoBytes, threeBytes]) 1)).status = .ended ∧
      "b".toList ∉ (upload ⟨4, [], []⟩ [twoBytes, threeBytes]
        (.replicate (uploadWork [twoBytes, threeBytes]) 1)).streamer.files.map Prod.fst ∧
      ¬ Streamed ⟨4, [], []⟩ [twoBytes, threeBytes]
        (upload ⟨4, [], []⟩ [twoBytes, threeBytes] (.replicate (uploadWork [twoBytes, threeBytes]) 1)) := by
  obtain ⟨h, hstatus⟩ := @upload_ends ⟨4, [], []⟩ _ _ (le_countP_replicate (uploadWork [twoBytes, threeBytes]))
  have hclean : Clean ⟨4, [], []⟩ (splitPlan ⟨4, [], []⟩ 0 [twoBytes, threeBytes]) := by
    intro before e after _ htee
    rw [lastTeed] at htee
    generalize (added before).getLast? = last at htee
    cases last with
    | none => cases htee
    | some d => cases htee
  obtain ⟨hended, hlisted⟩ := h.ended_of_clean hstatus hclean
  have hnot : "b".toList ∉ listed ⟨4, [], []⟩ (splitPlan ⟨4, [], []⟩ 0 [twoBytes, threeBytes]) := by
    decide +kernel
  have hfiles := fun hmem => hnot ((hlisted _).mp hmem)
  exact ⟨hended, hfiles, fun hs => hfiles (hs.files threeBytes (mem_cons_of_mem _ mem_cons_self) rfl)⟩

end TwoFiles

end WalG.Tarball
