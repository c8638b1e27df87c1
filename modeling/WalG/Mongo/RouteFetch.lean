import WalG.Mongo.Fetcher
import WalG.Mongo.OplogPush

/-! # Fetching along a route

A route over archives of adjacent spans gives the operations of its range.
-/
namespace WalG.Mongo
open Foundation List

variable {B : Bson}

def download (stored : List Upload) (arch : Archive) : Option Bytes :=
  (stored.find? fun u => u.arch = arch).map Upload.content

theorem download_eq {stored : List Upload} (hnodup : (stored.map Upload.arch).Nodup) {u : Upload} (hu : u ∈ stored) :
    download stored u.arch = some u.content := by
  induction stored with
  | nil => cases hu
  | cons v stored ih =>
    rw [map_cons, nodup_cons] at hnodup
    rcases mem_cons.mp hu with rfl | hu
    · simp [download]
    · have hne : v.arch ≠ u.arch := fun heq => hnodup.1 (heq ▸ mem_map_of_mem hu)
      rw [← ih hnodup.2 hu, download, download, find?_cons_of_neg (by simpa using hne)]

/-- The timestamp of the first document of an archive. -/
def firstTS (B : Bson) (content : Bytes) : Option Timestamp :=
  (nextRaw B content).bind fun doc => B.lookupTS doc.2.1

/-- The archive begins with the operation of its start. -/
def Opens (B : Bson) (u : Upload) : Prop := firstTS B u.content = some u.arch.startTS

theorem firstTS_op (o : Oplog B) (rest : Bytes) : firstTS B (o.data ++ rest) = some o.ts := by
  rw [firstTS, nextRaw_op]
  exact o.lookup

def sendData (ops : List (Oplog B)) : List FetchAction := ops.map fun o => .data o.entry

section Range

variable {oplog : List (Oplog B)} {since until_ : Timestamp} {P : Timestamp → Prop} [DecidablePred P]

theorem fetchArchive_before (h : ∀ t, P t → t < until_) :
    fetchArchive B since until_ ((oplog.filter fun o => P o.ts).flatMap Oplog.data) true =
      (sendData (oplog.filter fun o => P o.ts), some true) := by
  have hlt : ∀ o ∈ oplog.filter (fun o => P o.ts), o.ts < until_ := fun o ho =>
    h o.ts (of_decide_eq_true (mem_filter.mp ho).2)
  rw [← append_nil (flatMap _ _), fetchArchive_append hlt, fetchArchive_nil, append_nil]
  rfl

theorem fetchArchive_until (hinc : Increasing oplog) {o : Oplog B} (ho : o ∈ oplog) (hts : o.ts = until_)
    (hP : P until_) :
    fetchArchive B since until_ ((oplog.filter fun o => P o.ts).flatMap Oplog.data) true =
      (sendData (oplog.filter fun o => P o.ts ∧ o.ts < until_), none) := by
  have hsplit : oplog.filter (fun o => P o.ts) = (oplog.filter fun o => P o.ts ∧ o.ts < until_) ++
      ([o] ++ oplog.filter fun o => P o.ts ∧ until_ < o.ts) := by
    rw [← hinc.filter_ts_eq ho, hts]
    have hge := hinc.filter_append (P := fun t => t = until_) (Q := fun t => P t ∧ until_ < t)
      (R := fun t => P t ∧ until_ ≤ t) (fun s t hs ht => hs ▸ ht.2) fun t => by
        rw [le_iff_lt_or_eq, and_or_left, or_comm]
        exact or_congr ⟨fun h => h.2.symm, fun h => ⟨h ▸ hP, h.symm⟩⟩ Iff.rfl
    rw [hge]
    refine (hinc.filter_append (P := fun t => P t ∧ t < until_) (Q := fun t => P t ∧ until_ ≤ t) (R := P)
      (fun s t hs ht => hs.2.trans_le ht.2) fun t => ?_).symm
    rw [← and_or_left, and_iff_left (lt_or_ge t until_)]
  have hlt : ∀ o ∈ oplog.filter (fun o => P o.ts ∧ o.ts < until_), o.ts < until_ := fun o ho =>
    (of_decide_eq_true (mem_filter.mp ho).2).2
  rw [hsplit, flatMap_append, fetchArchive_append hlt, flatMap_append, flatMap_singleton,
    fetchArchive_stop hts.ge, append_nil]
  rfl

theorem fetchArchive_since (hinc : Increasing oplog) {o : Oplog B} (ho : o ∈ oplog) (hts : o.ts = since) {a : Archive}
    (hin : a.isIn since) {opens : Bool} (hone : a.startTS = a.endTS → opens = true) :
    fetchArchive B since until_ ((span oplog opens a).flatMap Oplog.data) false =
      fetchArchive B since until_ ((oplog.filter fun o => since ≤ o.ts ∧ o.ts ≤ a.endTS).flatMap Oplog.data) true := by
  have hle := Archive.le_end_of_isIn hin
  have hspan : span oplog opens a = (oplog.filter fun o =>
      ((a.startTS < o.ts ∨ (opens = true ∧ a.startTS = o.ts)) ∧ o.ts ≤ a.endTS) ∧ o.ts < since) ++
      oplog.filter fun o => since ≤ o.ts ∧ o.ts ≤ a.endTS := by
    refine (hinc.filter_append
      (P := fun t => ((a.startTS < t ∨ (opens = true ∧ a.startTS = t)) ∧ t ≤ a.endTS) ∧ t < since)
      (Q := fun t => since ≤ t ∧ t ≤ a.endTS)
      (R := fun t => (a.startTS < t ∨ (opens = true ∧ a.startTS = t)) ∧ t ≤ a.endTS)
      (fun s t hs ht => hs.2.trans_le ht.1) fun t => ?_).symm
    constructor
    · intro h
      rcases lt_or_ge t since with hlt | hge
      · exact .inl ⟨h, hlt⟩
      · exact .inr ⟨hge, h.2⟩
    · rintro (h | ⟨hge, hend⟩)
      · exact h.1
      · refine ⟨?_, hend⟩
        rcases Archive.isIn_iff.mp hin with hin | hin
        · exact .inl (hin.1.trans_le hge)
        · rcases a.start_le_end.lt_or_eq with hlt | heq
          · exact .inl (hlt.trans_le (hin.le.trans hge))
          · exact .inr ⟨hone heq, le_antisymm (heq.le.trans (hin.le.trans hge)) (heq ▸ hend)⟩
  have hfirst : (oplog.filter fun o => since ≤ o.ts ∧ o.ts ≤ a.endTS) =
      o :: oplog.filter fun o => since < o.ts ∧ o.ts ≤ a.endTS := by
    rw [← singleton_append, ← hinc.filter_ts_eq ho, hts]
    refine (hinc.filter_append (P := fun t => t = since) (Q := fun t => since < t ∧ t ≤ a.endTS)
      (R := fun t => since ≤ t ∧ t ≤ a.endTS) (fun s t hs ht => hs ▸ ht.1) fun t => ?_).symm
    rw [le_iff_lt_or_eq, or_and_right, or_comm]
    exact or_congr ⟨fun h => h.1.symm, fun h => ⟨h.symm, h ▸ hle⟩⟩ Iff.rfl
  have hskip : ∀ o ∈ oplog.filter (fun o =>
      ((a.startTS < o.ts ∨ (opens = true ∧ a.startTS = o.ts)) ∧ o.ts ≤ a.endTS) ∧ o.ts < since), o.ts ≠ since :=
    fun o ho => (of_decide_eq_true (mem_filter.mp ho).2).2.ne
  rw [hspan, flatMap_append, fetchArchive_skip hskip, hfirst, flatMap_cons, fetchArchive_first hts]

end Range

namespace Layout

variable {oplog : List (Oplog B)} {ext : Text} {first last since until_ : Timestamp} {stored : List Upload}
  {archives path : List Archive} {c : Archive} {u : Upload}

theorem span_opens (hinc : Increasing oplog) {o : Oplog B} (ho : o ∈ oplog) {a : Archive} (hts : o.ts = a.startTS) :
    span oplog true a = o :: span oplog false a := by
  rw [← singleton_append, ← hinc.filter_ts_eq ho, hts]
  refine (hinc.filter_append (P := fun t => t = a.startTS)
    (Q := fun t => (a.startTS < t ∨ (false = true ∧ a.startTS = t)) ∧ t ≤ a.endTS)
    (R := fun t => (a.startTS < t ∨ (true = true ∧ a.startTS = t)) ∧ t ≤ a.endTS)
    (fun s t hs ht => ?_) fun t => ?_).symm
  · rcases ht.1 with ht | ht
    · exact hs ▸ ht
    · cases ht.1
  · constructor
    · rintro ⟨ht | ⟨-, ht⟩, hend⟩
      · exact .inr ⟨.inl ht, hend⟩
      · exact .inl ht.symm
    · rintro (rfl | ⟨ht | ⟨ht, -⟩, hend⟩)
      · exact ⟨.inr ⟨rfl, rfl⟩, a.start_le_end⟩
      · exact ⟨.inl ht, hend⟩
      · cases ht

theorem mem_span_false {o : Oplog B} {a : Archive} (h : o ∈ span oplog false a) : a.startTS < o.ts := by
  rcases (of_decide_eq_true (mem_filter.mp h).2).1 with h | h
  · exact h
  · cases h.1

theorem content_of_not_opens (h : Layout oplog ext first last stored) (hinc : Increasing oplog) (hu : u ∈ stored)
    (hnot : ¬ Opens B u) : u.content = (span oplog false u.arch).flatMap Oplog.data := by
  obtain ⟨opens, hcontent, hopens, -⟩ := h.content u hu
  cases opens with
  | false => exact hcontent
  | true =>
    obtain ⟨o, ho, hts⟩ := hopens rfl
    rw [span_opens hinc ho hts, flatMap_cons] at hcontent
    exact absurd (by rw [Opens, hcontent, firstTS_op, hts]) hnot

theorem content_of_opens (h : Layout oplog ext first last stored) (hinc : Increasing oplog) (hu : u ∈ stored)
    (hopens : Opens B u) : ∃ o : Oplog B, o.ts = u.arch.startTS ∧
      u.content = o.data ++ (span oplog false u.arch).flatMap Oplog.data := by
  obtain ⟨opens, hcontent, hop, -⟩ := h.content u hu
  cases opens with
  | true =>
    obtain ⟨o, ho, hts⟩ := hop rfl
    rw [span_opens hinc ho hts, flatMap_cons] at hcontent
    exact ⟨o, hts, hcontent⟩
  | false =>
    rw [Opens, hcontent] at hopens
    cases hspan : span oplog false u.arch with
    | nil => simp [hspan, firstTS, nextRaw, B.read_nil] at hopens
    | cons o ops =>
      have hmem : o ∈ span oplog false u.arch := hspan ▸ mem_cons_self
      rw [hspan, flatMap_cons, firstTS_op] at hopens
      exact absurd (Option.some.inj hopens) (mem_span_false hmem).ne'

theorem span_false_eq (a : Archive) : span oplog false a = oplog.filter fun o => a.startTS < o.ts ∧ o.ts ≤ a.endTS :=
  filter_congr fun o _ => decide_eq_decide.mpr (by simp)

end Layout

theorem fetchPath_cons_op {since until_ : Timestamp} {stored : List Upload} {a : Archive} {p : Oplog B} {rest : Bytes}
    (ha : download stored a = some (p.data ++ rest)) (hp : p.ts < until_) (tail : List Archive) :
    ∃ actions, fetchPath B since until_ (download stored) (a :: tail) true = .data p.entry :: actions := by
  rw [fetchPath, ha]
  simp only
  rw [fetchArchive_decoded (nextRaw_op p _) p.lookup, if_neg (by simp), if_neg (not_le.mpr hp)]
  rcases hresult : (fetchArchive B since until_ rest true).2 with _ | _ | _
  · exact ⟨_, rfl⟩
  · exact ⟨_, rfl⟩
  · exact ⟨_, rfl⟩

/-- No archive of several operations that starts in the range up to `stop` opens a run. -/
def Seamless (B : Bson) (stored : List Upload) (since stop : Timestamp) : Prop :=
  ∀ u ∈ stored, since ≤ u.arch.startTS → u.arch.startTS < stop → u.arch.startTS < u.arch.endTS → ¬ Opens B u

section Fetch

variable {oplog : List (Oplog B)} {ext : Text} {first last since until_ : Timestamp} {stored : List Upload}
  {archives path : List Archive} {a c : Archive} (h : Layout oplog ext first last stored) (hinc : Increasing oplog)
  (hmem : ∀ a ∈ archives, a ∈ stored.map Upload.arch) {o : Oplog B} (ho : o ∈ oplog) (hsince : o.ts = since)

include h hinc hmem

/-- An archive that starts in the range and opens no run gives the operations after its start. -/
theorem download_next {stop : Timestamp} (ha : a ∈ archives) (hseamless : Seamless B stored since stop)
    (hproper : a.startTS < a.endTS) (hle : since ≤ a.startTS) (hstop : a.startTS < stop) :
    download stored a = some ((oplog.filter fun o => a.startTS < o.ts ∧ o.ts ≤ a.endTS).flatMap Oplog.data) := by
  obtain ⟨u, hu, rfl⟩ := mem_map.mp (hmem a ha)
  rw [download_eq h.nodup hu, h.content_of_not_opens hinc hu (hseamless u hu hle hstop hproper), Layout.span_false_eq]

include ho hsince

/-- Before the restore point a route gives the operations of its archives. -/
theorem fetchPath_route (hroute : Route archives since until_ path c) (hseamless : Seamless B stored since c.endTS)
    (hlt : c.endTS < until_) (tail : List Archive) :
    fetchPath B since until_ (download stored) (path ++ tail) false =
      sendData (oplog.filter fun o => since ≤ o.ts ∧ o.ts ≤ c.endTS) ++
        fetchPath B since until_ (download stored) tail true := by
  induction hroute generalizing tail with
  | @first a ha hin =>
    obtain ⟨u, hu, rfl⟩ := mem_map.mp (hmem a ha)
    obtain ⟨opens, hcontent, -, hone⟩ := h.content u hu
    rw [singleton_append, fetchPath, download_eq h.nodup hu]
    simp only [hcontent, fetchArchive_since hinc ho hsince hin hone]
    rw [fetchArchive_before (P := fun t => since ≤ t ∧ t ≤ u.arch.endTS) fun t ht => ht.2.trans_lt hlt]
  | @next path b a hroute ha hstart hproper hle huntil ih =>
    have hb : Seamless B stored since b.endTS := fun u hu hu1 hu2 =>
      hseamless u hu hu1 (hu2.trans (hstart ▸ hproper))
    rw [append_assoc, ih hb (hstart ▸ huntil), singleton_append, fetchPath,
      download_next h hinc hmem ha hseamless hproper hle hproper]
    simp only
    rw [fetchArchive_before (P := fun t => a.startTS < t ∧ t ≤ a.endTS) fun t ht => ht.2.trans_lt hlt]
    simp only
    rw [← append_assoc, sendData, sendData, ← map_append, ← hstart]
    congr 2
    refine hinc.filter_append (P := fun t => since ≤ t ∧ t ≤ a.startTS) (Q := fun t => a.startTS < t ∧ t ≤ a.endTS)
      (R := fun t => since ≤ t ∧ t ≤ a.endTS) (fun s t hs ht => hs.2.trans_lt ht.1) fun t => ?_
    rcases le_or_gt t a.startTS with ht | ht
    · simp [ht, not_lt.mpr ht, ht.trans hproper.le]
    · simp [ht, not_le.mpr ht, hle.trans ht.le]

/-- A route up to the restore point gives the operations of the range. -/
theorem fetchPath_reached (hroute : Route archives since until_ path c) (hseamless : Seamless B stored since until_)
    {p : Oplog B} (hp : p ∈ oplog) (hpts : p.ts = until_) (hle : since ≤ until_) (hend : until_ ≤ c.endTS)
    (tail : List Archive) :
    fetchPath B since until_ (download stored) (path ++ tail) false =
      sendData (oplog.filter fun o => since ≤ o.ts ∧ o.ts < until_) := by
  cases hroute with
  | @first _ ha hin =>
    obtain ⟨u, hu, rfl⟩ := mem_map.mp (hmem c ha)
    obtain ⟨opens, hcontent, -, hone⟩ := h.content u hu
    rw [singleton_append, fetchPath, download_eq h.nodup hu]
    simp only [hcontent, fetchArchive_since hinc ho hsince hin hone]
    rw [fetchArchive_until (P := fun t => since ≤ t ∧ t ≤ u.arch.endTS) hinc hp hpts ⟨hle, hend⟩]
    refine congrArg sendData (filter_congr fun q _ => decide_eq_decide.mpr ?_)
    exact ⟨fun hq => ⟨hq.1.1, hq.2⟩, fun hq => ⟨⟨hq.1, hq.2.le.trans hend⟩, hq.2⟩⟩
  | @next path b _ hroute ha hstart hproper hle' huntil =>
    have hb : Seamless B stored since b.endTS := fun u hu hu1 hu2 =>
      hseamless u hu hu1 (hu2.trans (hstart ▸ huntil))
    rw [append_assoc, fetchPath_route h hinc hmem ho hsince hroute hb (hstart ▸ huntil), singleton_append,
      fetchPath, download_next h hinc hmem ha hseamless hproper hle' huntil]
    simp only
    rw [fetchArchive_until (P := fun t => c.startTS < t ∧ t ≤ c.endTS) hinc hp hpts ⟨huntil, hend⟩]
    simp only
    rw [sendData, sendData, ← map_append, ← hstart]
    congr 1
    refine hinc.filter_append (P := fun t => since ≤ t ∧ t ≤ c.startTS)
      (Q := fun t => (c.startTS < t ∧ t ≤ c.endTS) ∧ t < until_) (R := fun t => since ≤ t ∧ t < until_)
      (fun s t hs ht => hs.2.trans_lt ht.1.1) fun t => ?_
    rcases le_or_gt t c.startTS with ht | ht
    · simp [ht, not_lt.mpr ht, ht.trans_lt huntil]
    · simp only [ht, not_le.mpr ht, hle'.trans ht.le, true_and, and_false, false_or]
      exact ⟨fun hlt => ⟨hlt.le.trans hend, hlt⟩, fun hlt => hlt.2⟩

/-- The first archive on a route that opens a run repeats the operation at its start. -/
theorem fetchPath_repeats (hroute : Route archives since until_ path c) (hbad : ¬ Seamless B stored since c.endTS)
    (htiling : Tiling ext first last archives) (hstored : ∀ u ∈ stored, u.arch ∈ archives) (tail : List Archive) :
    ∃ (p : Oplog B) (rest : List FetchAction), since ≤ p.ts ∧ p.ts < until_ ∧
      fetchPath B since until_ (download stored) (path ++ tail) false =
        sendData (oplog.filter fun o => since ≤ o.ts ∧ o.ts ≤ p.ts) ++ .data p.entry :: rest := by
  induction hroute generalizing tail with
  | @first a ha hin =>
    refine absurd (fun u hu hle hlt hproper => ?_) hbad
    rcases Archive.isIn_iff.mp hin with hin | hin
    · exact absurd hlt (not_lt.mpr (htiling.start_not_inside (hstored u hu) ha (hin.1.trans_le hle)))
    · exact absurd hlt (not_lt.mpr (hin.le.trans hle))
  | @next path b a hroute ha hstart hproper hle huntil ih =>
    by_cases hb : Seamless B stored since b.endTS
    · simp only [Seamless, not_forall, not_not] at hbad
      obtain ⟨u, hu, hu1, hu2, hu3, hopens⟩ := hbad
      have hua : u.arch = a := by
        have hstart' : u.arch.startTS = a.startTS := by
          rcases lt_trichotomy u.arch.startTS a.startTS with hlt | heq | hgt
          · exact absurd hopens (hb u hu hu1 (hstart ▸ hlt) hu3)
          · exact heq
          · exact absurd hu2 (not_lt.mpr (htiling.start_not_inside (hstored u hu) ha hgt))
        exact htiling.unique _ (hstored u hu) a ha (min u.arch.endTS a.endTS) (lt_min hu3 hu2) (min_le_left _ _)
          (hstart' ▸ lt_min hu3 hu2) (min_le_right _ _)
      subst hua
      obtain ⟨p, hp, hcontent⟩ := h.content_of_opens hinc hu hopens
      obtain ⟨rest, hrest⟩ := fetchPath_cons_op ((download_eq h.nodup hu).trans (congrArg some hcontent))
        (hp ▸ huntil) tail
      refine ⟨p, rest, hp ▸ hu1, hp ▸ huntil, ?_⟩
      rw [append_assoc, fetchPath_route h hinc hmem ho hsince hroute hb (hstart ▸ huntil), singleton_append,
        hrest, ← hstart, hp]
    · rw [append_assoc]
      exact ih hb _

end Fetch

end WalG.Mongo
