import Mathlib.Data.List.Count
import Mathlib.Data.List.Nodup
import WalG.Mongo.Archive

/-! # The sequence of archives between two timestamps

The sequence is found backwards: from the archive that holds the last timestamp, each time to the
archive that ends where this one starts.
-/
namespace WalG.Mongo
open Foundation List

inductive SequenceError
  | untilBeforeSince
  | untilNotFound
  | previousNotExist (ts : Timestamp)
  | cycles
  deriving DecidableEq

structure ArchiveIndex where
  seqEnd : Option Archive
  lastTSArch : Timestamp → Option Archive

/-- The first archive with the timestamp is kept, and the last one with each end. -/
def indexArchive (until_ : Timestamp) (idx : ArchiveIndex) (arch : Archive) : ArchiveIndex :=
  if arch.type ≠ .oplog then idx
  else {
    seqEnd := if idx.seqEnd = none ∧ arch.isIn until_ then some arch else idx.seqEnd
    lastTSArch := Function.update idx.lastTSArch arch.endTS (some arch) }

def indexArchives (archives : List Archive) (until_ : Timestamp) : ArchiveIndex :=
  archives.foldl (indexArchive until_) ⟨none, fun _ => none⟩

/-- The loop backwards, for as many steps as there are archives and one more. -/
def walkBack (lastTSArch : Timestamp → Option Archive) (since : Timestamp) :
    ℕ → Archive → List Archive → Except SequenceError (List Archive)
  | 0, _, _ => .error .cycles
  | steps + 1, seqEnd, archPath =>
    let archPath := archPath ++ [seqEnd]
    if seqEnd.isIn since then .ok archPath.reverse
    else
      match lastTSArch seqEnd.startTS with
      | none => .error (.previousNotExist seqEnd.startTS)
      | some seqEnd => walkBack lastTSArch since steps seqEnd archPath

def sequenceBetweenTS (archives : List Archive) (since until_ : Timestamp) : Except SequenceError (List Archive) :=
  if lessTS until_ since then .error .untilBeforeSince
  else
    let idx := indexArchives archives until_
    match idx.seqEnd with
    | none => .error .untilNotFound
    | some seqEnd => walkBack idx.lastTSArch since (archives.length + 1) seqEnd []

/-- Archives that tile the range after `first` up to `last`. One of a single operation
lies at a border. -/
structure Tiling (ext : Text) (first last : Timestamp) (archives : List Archive) : Prop where
  type : ∀ a ∈ archives, a.type = .oplog
  ext_eq : ∀ a ∈ archives, a.ext = ext
  bounds : ∀ a ∈ archives, first ≤ a.startTS ∧ a.endTS ≤ last
  cover : ∀ t, first < t → t ≤ last → ∃ a ∈ archives, a.startTS < t ∧ t ≤ a.endTS
  unique : ∀ a ∈ archives, ∀ b ∈ archives, ∀ t, a.startTS < t → t ≤ a.endTS → b.startTS < t → t ≤ b.endTS → a = b
  oneOp : ∀ a ∈ archives, a.startTS = a.endTS →
    ∀ b ∈ archives, b.startTS < a.endTS → a.endTS ≤ b.endTS → b.endTS = a.endTS

namespace Tiling

variable {ext : Text} {first last : Timestamp} {archives : List Archive} {a b : Archive}
  (h : Tiling ext first last archives)

include h

theorem start_not_inside (ha : a ∈ archives) (hb : b ∈ archives)
    (hlt : b.startTS < a.startTS) : b.endTS ≤ a.startTS := by
  by_contra hgt
  rw [not_le] at hgt
  rcases a.start_le_end.lt_or_eq with hproper | hone
  · have hab := h.unique a ha b hb (min a.endTS b.endTS) (lt_min hproper hgt) (min_le_left _ _)
      (hlt.trans (lt_min hproper hgt)) (min_le_right _ _)
    rw [hab] at hlt
    exact lt_irrefl _ hlt
  · have hend := h.oneOp a ha hone b hb (hone ▸ hlt) (hone ▸ hgt.le)
    rw [hend, ← hone] at hgt
    exact lt_irrefl _ hgt

theorem exists_before (ha : a ∈ archives) (hfirst : first < a.startTS) :
    ∃ b ∈ archives, b.startTS < b.endTS ∧ b.endTS = a.startTS := by
  obtain ⟨b, hb, hstart, hend⟩ := h.cover a.startTS hfirst (a.start_le_end.trans (h.bounds a ha).2)
  have heq := le_antisymm (h.start_not_inside ha hb hstart) hend
  exact ⟨b, hb, heq ▸ hstart, heq⟩

theorem eq_of_end (ha : a ∈ archives) (hb : b ∈ archives)
    (hend : a.endTS = b.endTS) (hproper : a.startTS < a.endTS ↔ b.startTS < b.endTS) : a = b := by
  rcases a.start_le_end.lt_or_eq with hlt | heq
  · exact h.unique a ha b hb a.endTS hlt le_rfl (hend ▸ hproper.mp hlt) hend.le
  · have hbeq : b.startTS = b.endTS := by
      rcases b.start_le_end.lt_or_eq with hlt | heq'
      · exact absurd (hproper.mpr hlt) heq.not_lt
      · exact heq'
    have hext := (h.ext_eq a ha).trans (h.ext_eq b hb).symm
    have htype := (h.type a ha).trans (h.type b hb).symm
    cases a
    cases b
    simp only [Archive.mk.injEq] at *
    exact ⟨heq.trans (hend.trans hbeq.symm), hend, hext, htype⟩

theorem perm {listing : List Archive} (hperm : listing.Perm archives) :
    Tiling ext first last listing where
  type a ha := h.type a (hperm.mem_iff.mp ha)
  ext_eq a ha := h.ext_eq a (hperm.mem_iff.mp ha)
  bounds a ha := h.bounds a (hperm.mem_iff.mp ha)
  cover t hfirst hlast := by
    obtain ⟨a, ha, hcover⟩ := h.cover t hfirst hlast
    exact ⟨a, hperm.mem_iff.mpr ha, hcover⟩
  unique a ha b hb := h.unique a (hperm.mem_iff.mp ha) b (hperm.mem_iff.mp hb)
  oneOp a ha hone b hb := h.oneOp a (hperm.mem_iff.mp ha) hone b (hperm.mem_iff.mp hb)

end Tiling

/-- The archives fetched for a range, from the one with its first timestamp on. -/
inductive Route (archives : List Archive) (since until_ : Timestamp) : List Archive → Archive → Prop
  | first {a} : a ∈ archives → a.isIn since → Route archives since until_ [a] a
  | next {path b a} : Route archives since until_ path b → a ∈ archives → a.startTS = b.endTS →
      a.startTS < a.endTS → since ≤ a.startTS → a.startTS < until_ → Route archives since until_ (path ++ [a]) a

/-- The last listed archive with an end. -/
def lastWithEnd (archives : List Archive) (ts : Timestamp) : Option Archive :=
  archives.reverse.find? fun a => a.endTS = ts

section Index

variable {archives : List Archive} {until_ ts : Timestamp} {a b : Archive}

theorem indexArchives_eq (htype : ∀ a ∈ archives, a.type = .oplog) :
    indexArchives archives until_ =
      ⟨archives.find? fun a => a.isIn until_, lastWithEnd archives⟩ := by
  induction archives using reverseRecOn with
  | nil => rfl
  | append_singleton archives a ih =>
    have hrest : ∀ b ∈ archives, b.type = .oplog := fun b hb => htype b (mem_append_left _ hb)
    have ha := htype a (by simp)
    rw [indexArchives] at ih ⊢
    rw [foldl_append, ih hrest, foldl_cons, foldl_nil, indexArchive, if_neg (by simp [ha])]
    congr 1
    · dsimp only
      rw [find?_append]
      cases hfind : archives.find? fun a => a.isIn until_ with
      | some b => simp
      | none => cases hin : a.isIn until_ <;> simp [hin]
    · funext ts
      rw [lastWithEnd, reverse_append, reverse_singleton, singleton_append, find?_cons]
      by_cases hts : ts = a.endTS
      · subst hts
        simp
      · rw [Function.update_of_ne hts]
        simp [Ne.symm hts, lastWithEnd]

theorem lastWithEnd_mem (h : lastWithEnd archives ts = some a) : a ∈ archives ∧ a.endTS = ts :=
  ⟨mem_reverse.mp (mem_of_find?_eq_some h), by simpa using find?_some h⟩

theorem exists_lastWithEnd (hb : b ∈ archives) : ∃ a, lastWithEnd archives b.endTS = some a := by
  rw [← Option.isSome_iff_exists, lastWithEnd, find?_isSome]
  exact ⟨b, mem_reverse.mpr hb, by simp⟩

theorem sublist_of_find (hfind : lastWithEnd archives ts = some a) (hb : b ∈ archives)
    (hend : b.endTS = ts) (hne : b ≠ a) : [b, a].Sublist archives := by
  obtain ⟨-, later, earlier, hsplit, hnone⟩ := find?_eq_some_iff_append.mp hfind
  have harchives : archives = earlier.reverse ++ a :: later.reverse := by
    rw [← reverse_reverse archives, hsplit]
    simp
  have hmem : b ∈ earlier.reverse := by
    rw [harchives, mem_append, mem_cons] at hb
    rcases hb with hb | hb | hb
    · exact hb
    · exact absurd hb hne
    · have := hnone b (mem_reverse.mp hb)
      simp [hend] at this
  rw [harchives]
  exact (singleton_sublist.mpr hmem).append (singleton_sublist.mpr mem_cons_self)

theorem not_sublist_swap (hnodup : archives.Nodup) (h : [a, b].Sublist archives) : ¬ [b, a].Sublist archives := by
  induction archives with
  | nil => exact nofun
  | cons c archives ih =>
    rw [nodup_cons] at hnodup
    intro hswap
    cases h with
    | cons _ h =>
      cases hswap with
      | cons _ hswap => exact ih hnodup.2 h hswap
      | cons_cons _ hswap => exact hnodup.1 (h.subset (by simp))
    | cons_cons _ h =>
      cases hswap with
      | cons _ hswap => exact hnodup.1 (hswap.subset (by simp))
      | cons_cons _ hswap => exact hnodup.1 (singleton_sublist.mp h)

end Index

section Walk

variable {ext : Text} {first last since until_ : Timestamp} {archives : List Archive} {a : Archive}

/-- The archives that end by a time are fewer at the start of an archive than at its end. -/
theorem countP_start_lt (ha : a ∈ archives) (hproper : a.startTS < a.endTS) :
    (archives.countP fun b => b.endTS ≤ a.startTS) < archives.countP fun b => b.endTS ≤ a.endTS := by
  obtain ⟨pre, post, rfl⟩ := append_of_mem ha
  have hmono : ∀ l : List Archive, (l.countP fun b => b.endTS ≤ a.startTS) ≤ l.countP fun b => b.endTS ≤ a.endTS :=
    fun l => countP_mono_left fun b _ hb => decide_eq_true ((of_decide_eq_true hb).trans hproper.le)
  rw [countP_append, countP_append, countP_cons_of_neg (by simpa using hproper), countP_cons_of_pos (by simp)]
  have hpre := hmono pre
  have hpost := hmono post
  omega

/-- An archive of one operation is listed before the longer one with its end. -/
def Untangled (archives : List Archive) (since until_ : Timestamp) : Prop :=
  ∀ a ∈ archives, a.startTS = a.endTS → since < a.endTS → a.endTS < until_ →
    ∀ b ∈ archives, b.startTS < b.endTS → b.endTS = a.endTS → [a, b].Sublist archives

variable (h : Tiling ext first last archives)

include h

/-- The walk finds a route if every border on it leads to the longer archive before it. -/
theorem walkBack_route (hfirst : first < since)
    (hlook : ∀ b ∈ archives, b.startTS < b.endTS → since < b.endTS → b.endTS < until_ →
      lastWithEnd archives b.endTS = some b) {steps : ℕ} (archPath : List Archive) (ha : a ∈ archives)
    (hsince : since ≤ a.endTS) (hstart : a.isIn since ∨ (a.startTS < a.endTS ∧ a.startTS < until_))
    (hsteps : (archives.countP fun b => b.endTS ≤ a.endTS) ≤ steps) :
    ∃ path, walkBack (lastWithEnd archives) since steps a archPath = .ok (path ++ archPath.reverse) ∧
      Route archives since until_ path a := by
  induction steps generalizing a archPath with
  | zero =>
    have hpos : 0 < archives.countP fun b => b.endTS ≤ a.endTS := countP_pos_iff.mpr ⟨a, ha, by simp⟩
    omega
  | succ steps ih =>
    rw [walkBack]
    by_cases hin : a.isIn since
    · refine ⟨[a], ?_, .first ha hin⟩
      rw [if_pos hin, reverse_append]
      rfl
    · obtain ⟨hproper, huntil⟩ := hstart.resolve_left hin
      have hle : since ≤ a.startTS := by
        by_contra hlt
        exact hin (Archive.isIn_iff.mpr (.inl ⟨not_le.mp hlt, hsince⟩))
      obtain ⟨b, hb, hbproper, hbend⟩ := h.exists_before ha (hfirst.trans_le hle)
      obtain ⟨c, hc⟩ := exists_lastWithEnd hb
      rw [hbend] at hc
      obtain ⟨hcmem, hcend⟩ := lastWithEnd_mem hc
      have hcstart : c.isIn since ∨ (c.startTS < c.endTS ∧ c.startTS < until_) := by
        rcases hle.lt_or_eq with hlt | heq
        · have hlookb := hlook b hb hbproper (hbend ▸ hlt) (hbend ▸ huntil)
          rw [hbend, hc] at hlookb
          cases hlookb
          exact .inr ⟨hbproper, hbproper.trans (hbend ▸ huntil)⟩
        · exact .inl (Archive.isIn_iff.mpr (.inr (hcend.trans heq.symm)))
      have hcount := countP_start_lt ha hproper
      obtain ⟨path, hwalk, hroute⟩ := ih (archPath ++ [a]) hcmem (hcend ▸ hle) hcstart (by rw [hcend]; omega)
      refine ⟨path ++ [a], ?_, hroute.next ha hcend.symm hproper hle huntil⟩
      simp only [if_neg hin, hc, hwalk, reverse_append, reverse_singleton, append_assoc, singleton_append]

/-- From a border that leads back to itself the walk does not return. -/
theorem walkBack_caught {ts : Timestamp} (hsince : since < ts)
    (hone : a.startTS = ts) (hlook : lastWithEnd archives ts = some a) {b : Archive} (hb : b ∈ archives)
    (hle : ts ≤ b.startTS) {steps : ℕ} {archPath path : List Archive} :
    walkBack (lastWithEnd archives) since steps b archPath ≠ .ok path := by
  induction steps generalizing b archPath with
  | zero => exact nofun
  | succ steps ih =>
    have hin : ¬ b.isIn since := by
      rw [Archive.isIn_iff]
      rintro (⟨hlt, -⟩ | heq)
      · exact absurd (hlt.trans hsince) (not_lt.mpr hle)
      · exact absurd hsince (not_lt.mpr (heq ▸ hle.trans b.start_le_end))
    rw [walkBack]
    simp only [if_neg hin]
    cases hc : lastWithEnd archives b.startTS with
    | none => exact nofun
    | some c =>
      obtain ⟨hcmem, hcend⟩ := lastWithEnd_mem hc
      refine ih hcmem ?_
      by_contra hlt
      rw [not_le] at hlt
      have ha := (lastWithEnd_mem hlook).1
      have hcts : c.endTS = ts := le_antisymm (hone ▸ h.start_not_inside ha hcmem (hone ▸ hlt)) (hcend ▸ hle)
      rw [← hcend, hcts, hlook] at hc
      cases hc
      exact hlt.ne hone

theorem sequenceBetweenTS_eq (hle : since ≤ until_) {seqEnd : Archive}
    (hfind : (archives.find? fun a => a.isIn until_) = some seqEnd) :
    sequenceBetweenTS archives since until_ =
      walkBack (lastWithEnd archives) since (archives.length + 1) seqEnd [] := by
  rw [sequenceBetweenTS, if_neg (by simpa using hle), indexArchives_eq h.type]
  simp only [hfind]

theorem exists_isIn (hfirst : first < until_) (hlast : until_ ≤ last) :
    ∃ seqEnd, (archives.find? fun a => a.isIn until_) = some seqEnd := by
  rw [← Option.isSome_iff_exists, find?_isSome]
  obtain ⟨a, ha, hin⟩ := h.cover until_ hfirst hlast
  exact ⟨a, ha, Archive.isIn_iff.mpr (.inl hin)⟩

variable (hnodup : archives.Nodup)

include hnodup

theorem lastWithEnd_of_untangled (huntangled : Untangled archives since until_) {b : Archive} (hb : b ∈ archives)
    (hproper : b.startTS < b.endTS) (hsince : since < b.endTS) (huntil : b.endTS < until_) :
    lastWithEnd archives b.endTS = some b := by
  obtain ⟨c, hc⟩ := exists_lastWithEnd hb
  obtain ⟨hcmem, hcend⟩ := lastWithEnd_mem hc
  rw [hc]
  by_contra hne
  have hbc : b ≠ c := fun heq => hne (congrArg some heq.symm)
  rcases c.start_le_end.lt_or_eq with hlt | hone
  · exact hbc (h.eq_of_end hb hcmem hcend.symm ⟨fun _ => hlt, fun _ => hproper⟩)
  · have hsub := huntangled c hcmem hone (hcend ▸ hsince) (hcend ▸ huntil) b hb hproper hcend.symm
    exact not_sublist_swap hnodup hsub (sublist_of_find hc hb rfl hbc)

/-- The first listed archive with the last timestamp, or the longer one before it, ends
the route. -/
theorem sequenceBetweenTS_route (hfirst : first < since) (hle : since ≤ until_) (hlast : until_ ≤ last)
    (huntangled : Untangled archives since until_) :
    ∃ path tail c, sequenceBetweenTS archives since until_ = .ok (path ++ tail) ∧
      Route archives since until_ path c ∧ until_ ≤ c.endTS := by
  obtain ⟨seqEnd, hfind⟩ := exists_isIn h (hfirst.trans_le hle) hlast
  have hmem := mem_of_find?_eq_some hfind
  have hin : seqEnd.isIn until_ := by simpa using find?_some hfind
  have hend : until_ ≤ seqEnd.endTS := Archive.le_end_of_isIn hin
  have hlook : ∀ b ∈ archives, b.startTS < b.endTS → since < b.endTS → b.endTS < until_ →
      lastWithEnd archives b.endTS = some b := fun b hb => lastWithEnd_of_untangled h hnodup huntangled hb
  have hcount : ∀ a : Archive, (archives.countP fun b => b.endTS ≤ a.endTS) ≤ archives.length :=
    fun a => countP_le_length
  rw [sequenceBetweenTS_eq h hle hfind]
  by_cases hstart : seqEnd.isIn since ∨ (seqEnd.startTS < seqEnd.endTS ∧ seqEnd.startTS < until_)
  · obtain ⟨path, hwalk, hroute⟩ := walkBack_route h hfirst hlook [] hmem (hle.trans hend) hstart
      ((hcount seqEnd).trans (Nat.le_succ _))
    exact ⟨path, [], seqEnd, hwalk, hroute, hend⟩
  · -- an archive of one operation at the last timestamp: the walk goes on to the longer one
    rw [not_or, not_and_or] at hstart
    obtain ⟨hnot, hstart⟩ := hstart
    have hone : seqEnd.startTS = until_ ∧ seqEnd.endTS = until_ := by
      rcases Archive.isIn_iff.mp hin with hin | hin
      · exact absurd hin.1 (hstart.elim (fun hs => absurd (hin.1.trans_le hin.2) hs) id)
      · refine ⟨le_antisymm (hin ▸ seqEnd.start_le_end) (not_lt.mp ?_), hin⟩
        exact hstart.elim (fun hs => hin ▸ hs) id
    obtain ⟨b, hb, hbproper, hbend⟩ := h.exists_before hmem (hone.1 ▸ hfirst.trans_le hle)
    obtain ⟨c, hc⟩ := exists_lastWithEnd hb
    obtain ⟨hcmem, hcend⟩ := lastWithEnd_mem hc
    have hbc : b = c := by
      by_contra hne
      have hbefore := sublist_of_find hc hb rfl hne
      have hcone : c = seqEnd := by
        refine h.eq_of_end hcmem hmem (hcend.trans (hbend.trans (hone.1.trans hone.2.symm)))
          ⟨fun hlt => ?_, fun hlt => ?_⟩
        · exact absurd (h.eq_of_end hb hcmem hcend.symm ⟨fun _ => hlt, fun _ => hbproper⟩) hne
        · exact absurd (hone.1.trans hone.2.symm) hlt.ne
      obtain ⟨-, pre, post, hsplit, hnone⟩ := find?_eq_some_iff_append.mp hfind
      have hbpost : [seqEnd, b].Sublist archives := by
        have hbin : b.isIn until_ := Archive.isIn_iff.mpr (.inr (hbend.trans hone.1))
        rw [hsplit, mem_append, mem_cons] at hb
        rcases hb with hb | hb | hb
        · have := hnone b hb
          simp [hbin] at this
        · exact absurd (hb.trans hcone.symm) hne
        · rw [hsplit]
          exact ((singleton_sublist.mpr hb).cons_cons seqEnd).trans (sublist_append_right _ _)
      exact not_sublist_swap hnodup hbpost (hcone ▸ hbefore)
    subst hbc
    have hb_end : b.endTS = until_ := hbend.trans hone.1
    obtain ⟨path, hwalk, hroute⟩ := walkBack_route h hfirst hlook [seqEnd] hb (hb_end ▸ hle)
      (.inr ⟨hbproper, hb_end ▸ hbproper⟩) (hcount b)
    refine ⟨path, [seqEnd], b, ?_, hroute, hb_end.ge⟩
    rw [walkBack]
    simp only [if_neg hnot, ← hbend, hc, nil_append]
    exact hwalk

omit hnodup in
/-- A walk over an archive of one operation listed after the longer one is caught there. -/
theorem untangled_of_sequenceBetweenTS (hfirst : first < since) (hle : since ≤ until_) (hlast : until_ ≤ last)
    {path : List Archive} (hok : sequenceBetweenTS archives since until_ = .ok path) :
    Untangled archives since until_ := by
  intro a ha hone hsince huntil b hb hbproper hend
  by_contra hsub
  obtain ⟨seqEnd, hfind⟩ := exists_isIn h (hfirst.trans_le hle) hlast
  have hmem := mem_of_find?_eq_some hfind
  have hin : seqEnd.isIn until_ := by simpa using find?_some hfind
  have hlook : lastWithEnd archives a.endTS = some a := by
    obtain ⟨c, hc⟩ := exists_lastWithEnd ha
    obtain ⟨hcmem, hcend⟩ := lastWithEnd_mem hc
    rw [hc]
    rcases c.start_le_end.lt_or_eq with hlt | hcone
    · obtain rfl := h.eq_of_end hb hcmem (hend.trans hcend.symm) ⟨fun _ => hlt, fun _ => hbproper⟩
      exact absurd (sublist_of_find hc ha rfl fun heq => hbproper.ne (heq ▸ hone)) hsub
    · rw [h.eq_of_end hcmem ha hcend ⟨fun hlt => absurd hcone hlt.ne, fun hlt => absurd hone hlt.ne⟩]
  refine walkBack_caught h hsince hone hlook hmem ?_ (sequenceBetweenTS_eq h hle hfind ▸ hok)
  by_contra hlt
  rw [not_le, ← hone] at hlt
  have hle := h.start_not_inside ha hmem hlt
  exact absurd (huntil.trans_le (Archive.le_end_of_isIn hin)) (not_lt.mpr (hone ▸ hle))

end Walk

end WalG.Mongo
