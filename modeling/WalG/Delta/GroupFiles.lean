import WalG.Delta.RecordedSegment

/-! # The files of a group in closed form

After any segments in any order, the part file of a group holds what was stored of those among them
that belong to the group or stand before it, and the delta file the locations of those in the group.
-/
namespace WalG.Delta
open Foundation PageFile Backup XLog Wal DeltaFileManager List

variable {w : WalSize} (wal : ℕ → WalStream) (g : DeltaGroup w)

/-- The part file of a group behind the recording of some segments. -/
def storedPart (segments : List (WalSegment w)) : WalPartFile where
  walTails id := if g.segment id ∈ segments then tailOf wal (g.segment id) else none
  previousWalHead := g.preceding.bind fun s => if s ∈ segments then some (headOf wal s) else none
  walHeads id := if g.segment id ∈ segments then some (headOf wal (g.segment id)) else none

/-- The delta file of a group behind the recording of some segments. -/
def storedDelta (segments : List (WalSegment w)) : DeltaFile :=
  ⟨(segments.filter fun s => group s = g).flatMap (innerLocations wal), newWalParser⟩

section ClosedForm

theorem storedPart_nil : storedPart wal g [] = newWalPartFile := by
  cases h : g.preceding <;> simp [storedPart, newWalPartFile, h]

theorem storedDelta_nil : storedDelta wal g [] = newDeltaFile newWalParser := rfl

variable {g} {s : WalSegment w} (segments : List (WalSegment w))

theorem segment_eq_iff (h : group s = g) (id : Position) : g.segment id = s ↔ id = position s := by
  constructor
  · rintro rfl
    exact (g.position_segment id).symm
  · rintro rfl
    rw [← h, DeltaGroup.segment_position]

theorem mem_concat_of_ne {t : WalSegment w} (h : t ≠ s) : t ∈ segments ++ [s] ↔ t ∈ segments := by
  simp [h]

theorem storedPart_own (h : group s = g) :
    ((storedPart wal g segments).withTail (position s) (tailOf wal s)).withHead (position s) (headOf wal s) =
      storedPart wal g (segments ++ [s]) := by
  have hself : g.segment (position s) = s := (segment_eq_iff h _).mpr rfl
  refine WalPartFile.ext (funext fun id => ?_) ?_ (funext fun id => ?_)
  · rw [WalPartFile.walTails_withHead, WalPartFile.walTails_withTail]
    by_cases hid : id = position s
    · subst hid
      cases htail : tailOf wal s <;> simp [storedPart, hself, htail]
    · have hne : g.segment id ≠ s := fun heq => hid ((segment_eq_iff h id).mp heq)
      simp only [storedPart, if_neg hid, mem_concat_of_ne segments hne]
  · rw [WalPartFile.previousWalHead_withHead, WalPartFile.previousWalHead_withTail]
    refine Option.bind_congr fun t ht => ?_
    have hne : t ≠ s := fun hts => preceding_group_ne ht (hts ▸ h)
    simp only [mem_concat_of_ne segments hne]
  · rw [WalPartFile.walHeads_withHead, WalPartFile.walHeads_withTail]
    by_cases hid : id = position s
    · subst hid
      simp [storedPart, hself]
    · have hne : g.segment id ≠ s := fun heq => hid ((segment_eq_iff h id).mp heq)
      simp only [storedPart, if_neg hid, mem_concat_of_ne segments hne]

theorem segment_ne (h : group s ≠ g) (id : Position) : g.segment id ≠ s := by
  rintro rfl
  exact h (g.group_segment id)

theorem storedPart_next (h : g.preceding = some s) :
    (storedPart wal g segments).withPreviousHead (headOf wal s) = storedPart wal g (segments ++ [s]) := by
  have hne := segment_ne (preceding_group_ne h)
  refine WalPartFile.ext (funext fun id => ?_) ?_ (funext fun id => ?_)
  · simp only [storedPart, WalPartFile.withPreviousHead, mem_concat_of_ne segments (hne id)]
  · simp [storedPart, WalPartFile.withPreviousHead, h]
  · simp only [storedPart, WalPartFile.withPreviousHead, mem_concat_of_ne segments (hne id)]

theorem storedPart_other (h : group s ≠ g) (hpreceding : g.preceding ≠ some s) :
    storedPart wal g (segments ++ [s]) = storedPart wal g segments := by
  refine WalPartFile.ext (funext fun id => ?_) ?_ (funext fun id => ?_)
  · simp only [storedPart, mem_concat_of_ne segments (segment_ne h id)]
  · refine Option.bind_congr fun t ht => ?_
    have hne : t ≠ s := fun hts => hpreceding (hts ▸ ht)
    simp only [mem_concat_of_ne segments hne]
  · simp only [storedPart, mem_concat_of_ne segments (segment_ne h id)]

theorem storedDelta_own (h : group s = g) : storedDelta wal g (segments ++ [s]) =
    ⟨(storedDelta wal g segments).locations ++ innerLocations wal s, newWalParser⟩ := by
  simp [storedDelta, h]

theorem storedDelta_other (h : group s ≠ g) : storedDelta wal g (segments ++ [s]) = storedDelta wal g segments := by
  simp [storedDelta, h]

end ClosedForm

/-- The segments are recorded one after the other. -/
inductive RecordsSegments : List (WalSegment w) → DeltaFileManager → DeltaFileManager → Prop where
  | nil (m : DeltaFileManager) : RecordsSegments [] m m
  | cons {s : WalSegment w} {segments : List (WalSegment w)} {m m₁ m' : DeltaFileManager}
      (h : RecordsSegment wal s m m₁) (hrest : RecordsSegments segments m₁ m') : RecordsSegments (s :: segments) m m'

/-- Whether recording a segment touches the part file of the group. -/
def DeltaGroup.Touches (s : WalSegment w) : Prop := group s = g ∨ g.preceding = some s

section Runs

/-- The files of a group after some segments, where the folder had what was stored of earlier ones. -/
structure Tracks (parts located segments : List (WalSegment w)) (m : DeltaFileManager) : Prop where
  partFile : m.partFile g.name = .ok (storedPart wal g (parts ++ segments))
  deltaFile : m.deltaFile g.name = .ok (storedDelta wal g (located ++ segments))
  part_loaded : (m.partFiles.get g.name).isSome ↔ ∃ s ∈ segments, g.Touches s
  delta_loaded : (m.deltaFileWriters.get g.name).isSome ↔ ∃ s ∈ segments, group s = g

theorem loadPartFile_absent {folder : Table DataFile Bytes} (h : folder.get (.part g.name) = none) :
    (newDeltaFileManager folder).loadPartFile g.name = .ok (storedPart wal g []) := by
  rw [storedPart_nil, DeltaFileManager.loadPartFile, newDeltaFileManager, h]

theorem loadDeltaFileWriter_absent {folder : Table DataFile Bytes} (h : folder.get (.delta g.name) = none) :
    (newDeltaFileManager folder).loadDeltaFileWriter g.name = .ok (storedDelta wal g []) := by
  rw [storedDelta_nil, DeltaFileManager.loadDeltaFileWriter, newDeltaFileManager, h]

variable {wal g} {parts located segments : List (WalSegment w)} {s : WalSegment w} {m m' : DeltaFileManager}

theorem Tracks.start {folder : Table DataFile Bytes}
    (hpart : (newDeltaFileManager folder).loadPartFile g.name = .ok (storedPart wal g parts))
    (hdelta : (newDeltaFileManager folder).loadDeltaFileWriter g.name = .ok (storedDelta wal g located)) :
    Tracks wal g parts located [] (newDeltaFileManager folder) := by
  refine ⟨?_, ?_, by simp [newDeltaFileManager], by simp [newDeltaFileManager]⟩
  · rw [append_nil]
    exact hpart
  · rw [append_nil]
    exact hdelta

theorem RecordsSegments.canceled (h : RecordsSegments wal segments m m') :
    m'.canceledDeltaFiles = m.canceledDeltaFiles := by
  induction h with
  | nil => rfl
  | cons hstep _ ih => rw [ih, hstep.canceled]

variable (h : Tracks wal g parts located segments m)

include h

theorem Tracks.step (hrecords : RecordsSegment wal s m m') : Tracks wal g parts located (segments ++ [s]) m' := by
  have hexists (p : WalSegment w → Prop) : (∃ t ∈ segments ++ [s], p t) ↔ (∃ t ∈ segments, p t) ∨ p s := by
    simp [or_and_right, exists_or]
  by_cases hgroup : group s = g
  · subst hgroup
    obtain ⟨hpart, hdelta, -⟩ := hrecords.own h.partFile h.deltaFile
    rw [storedPart_own wal _ rfl] at hpart
    refine ⟨?_, ?_, ?_, ?_⟩
    · rw [← append_assoc]
      exact partFile_of_get hpart
    · rw [← append_assoc, storedDelta_own wal _ rfl]
      exact deltaFile_of_get hdelta
    · rw [hexists, hpart]
      exact iff_of_true rfl (.inr (.inl rfl))
    · rw [hexists, hdelta]
      exact iff_of_true rfl (.inr rfl)
  · by_cases hpreceding : g.preceding = some s
    · obtain ⟨hpart, hdelta, hfolder⟩ := hrecords.next hpreceding h.partFile
      rw [storedPart_next wal _ hpreceding] at hpart
      refine ⟨?_, ?_, ?_, ?_⟩
      · rw [← append_assoc]
        exact partFile_of_get hpart
      · rw [← append_assoc, storedDelta_other wal _ hgroup, deltaFile_congr hfolder hdelta]
        exact h.deltaFile
      · rw [hexists, hpart]
        exact iff_of_true rfl (.inr (.inr hpreceding))
      · rw [hexists, hdelta, h.delta_loaded, or_iff_left hgroup]
    · have hsame := hrecords.other hgroup hpreceding
      refine ⟨?_, ?_, ?_, ?_⟩
      · rw [← append_assoc, storedPart_other wal _ hgroup hpreceding, partFile_congr hsame.dataFolder hsame.partFiles]
        exact h.partFile
      · rw [← append_assoc, storedDelta_other wal _ hgroup, deltaFile_congr hsame.dataFolder hsame.deltaFileWriters]
        exact h.deltaFile
      · rw [hexists, hsame.partFiles, h.part_loaded,
          or_iff_left (show ¬ g.Touches s from not_or.mpr ⟨hgroup, hpreceding⟩)]
      · rw [hexists, hsame.deltaFileWriters, h.delta_loaded, or_iff_left hgroup]

theorem Tracks.run {later : List (WalSegment w)}
    (hrecords : RecordsSegments wal later m m') : Tracks wal g parts located (segments ++ later) m' := by
  induction hrecords generalizing segments with
  | nil => rwa [append_nil]
  | cons hstep _ ih =>
    have hlater := ih (h.step hstep)
    rwa [append_assoc] at hlater

theorem Tracks.part_eq {p : WalPartFile}
    (hget : m.partFiles.get g.name = some p) : p = storedPart wal g (parts ++ segments) := by
  have hview := h.partFile
  rw [partFile_of_get hget] at hview
  exact Except.ok.inj hview

theorem Tracks.part (htouches : ∃ s ∈ segments, g.Touches s) :
    m.partFiles.get g.name = some (storedPart wal g (parts ++ segments)) := by
  obtain ⟨p, hp⟩ := Option.isSome_iff_exists.mp (h.part_loaded.mpr htouches)
  rw [hp, h.part_eq hp]

theorem Tracks.part_none (htouches : ¬ ∃ s ∈ segments, g.Touches s) : m.partFiles.get g.name = none :=
  Option.not_isSome_iff_eq_none.mp (mt h.part_loaded.mp htouches)

theorem Tracks.delta (hsegments : ∃ s ∈ segments, group s = g) :
    m.deltaFileWriters.get g.name = some (storedDelta wal g (located ++ segments)) := by
  obtain ⟨d, hd⟩ := Option.isSome_iff_exists.mp (h.delta_loaded.mpr hsegments)
  have hview := h.deltaFile
  rw [deltaFile_of_get hd] at hview
  rw [hd, Except.ok.inj hview]

theorem Tracks.delta_none (hsegments : ¬ ∃ s ∈ segments, group s = g) : m.deltaFileWriters.get g.name = none :=
  Option.not_isSome_iff_eq_none.mp (mt h.delta_loaded.mp hsegments)

omit h in
theorem exists_recordsSegments (h : ∀ g : DeltaGroup w, ∃ parts located, Tracks wal g parts located segments m)
    (later : List (WalSegment w))
    (hnext : ∀ s ∈ later, position s = lastPosition → ∃ g : DeltaGroup w, g.preceding = some s) :
    ∃ m', RecordsSegments wal later m m' := by
  induction later generalizing segments m with
  | nil => exact ⟨m, .nil m⟩
  | cons s later ih =>
    obtain ⟨hs, hlater⟩ := forall_mem_cons.mp hnext
    obtain ⟨parts, located, htracks⟩ := h (group s)
    have hfollowing : position s = lastPosition → ∃ p, m.partFile (nextDeltaFilename w s.filename) = .ok p := by
      intro hposition
      obtain ⟨g, hg⟩ := hs hposition
      obtain ⟨parts, located, htracks⟩ := h g
      rw [(nextDeltaFilename_eq_iff s hposition g).mpr hg]
      exact ⟨_, htracks.partFile⟩
    obtain ⟨m₁, hrecords⟩ := exists_recordsSegment wal htracks.partFile htracks.deltaFile hfollowing
    obtain ⟨m', hrest⟩ := ih (fun g => by
      obtain ⟨parts, located, htracks⟩ := h g
      exact ⟨parts, located, htracks.step hrecords⟩) hlater
    exact ⟨m', .cons hrecords hrest⟩

end Runs

section Completeness

variable {wal g} {segments : List (WalSegment w)}

/-- A part file is complete when the segment before the group and those of the group were recorded, and in each of
these a record ended. -/
theorem storedPart_isComplete_iff : (storedPart wal g segments).isComplete ↔
    (∃ s ∈ segments, g.preceding = some s) ∧ ∀ id, g.segment id ∈ segments ∧ (tailOf wal (g.segment id)).isSome := by
  have htails (id : Position) : ((storedPart wal g segments).walTails id).isSome ↔
      g.segment id ∈ segments ∧ (tailOf wal (g.segment id)).isSome := by
    by_cases h : g.segment id ∈ segments <;> simp [storedPart, h]
  have hheads (id : Position) : ((storedPart wal g segments).walHeads id).isSome ↔ g.segment id ∈ segments := by
    by_cases h : g.segment id ∈ segments <;> simp [storedPart, h]
  have hprevious : (storedPart wal g segments).previousWalHead.isSome ↔ ∃ s ∈ segments, g.preceding = some s := by
    cases h : g.preceding with
    | none => simp [storedPart, h]
    | some s => by_cases hs : s ∈ segments <;> simp [storedPart, h, hs]
  simp only [WalPartFile.isComplete, Bool.and_eq_true, all_eq_true, mem_finRange, true_implies, htails,
    hheads, hprevious]
  constructor
  · rintro ⟨⟨hall, hpreceding⟩, -⟩
    exact ⟨hpreceding, hall⟩
  · rintro ⟨hpreceding, hall⟩
    exact ⟨⟨hall, hpreceding⟩, fun id => (hall id).1⟩

/-- The record that crosses into a segment. -/
def crossingOf (wal : ℕ → WalStream) (s : WalSegment w) : List RawRecord := ((wal s.timeline).crossing s.no).unfinished

/-- The records that cross into the segments of a group. -/
def crossingRecords (wal : ℕ → WalStream) (g : DeltaGroup w) : List XLogRecord :=
  (finRange walFileInDelta).flatMap fun id => (crossingOf wal (g.segment id)).map RawRecord.record

theorem tailOf_isSome_iff {s : WalSegment w} :
    (tailOf wal s).isSome ↔ ((wal s.timeline).segment s.no).completed ≠ [] := by
  rw [tailOf, WalStream.tail]
  split_ifs with h
  · simpa using h
  · simpa using h

theorem tailOf_eq {s : WalSegment w} (h : (tailOf wal s).isSome) :
    tailOf wal s = some ((wal s.timeline).crossing s.no).rest := by
  rw [tailOf, WalStream.tail] at h ⊢
  split_ifs at h ⊢
  · cases h
  · rfl

/-- The stored parts on both sides of a border make up the record that crosses it. -/
theorem recordData_storedPart (hcomplete : (storedPart wal g segments).isComplete)
    (hsupplies : ∀ s, g.preceding = some s → (wal s.timeline).Supplies s.no) (id : Position) :
    (storedPart wal g segments).recordData id = (crossingOf wal (g.segment id)).flatMap RawRecord.data := by
  obtain ⟨⟨s, hs, hpreceding⟩, hall⟩ := storedPart_isComplete_iff.mp hcomplete
  have hhead : ((storedPart wal g segments).getCurrentDeltaFileRecordHeads id).getD [] =
      ((wal g.first.timeline).crossing (g.first.no + id)).head := by
    rw [WalPartFile.getCurrentDeltaFileRecordHeads]
    split_ifs with hid
    · obtain ⟨htimeline, hno⟩ := g.preceding_eq_some_iff.mp hpreceding
      have hprevious : (storedPart wal g segments).previousWalHead = some (headOf wal s) := by
        simp [storedPart, hpreceding, hs]
      rw [hprevious, Option.getD_some, headOf, (hsupplies s hpreceding).head_eq, htimeline, hno, hid]
    · obtain ⟨hmem, htail⟩ := hall ⟨id - 1, by omega⟩
      have hsupplies' : (wal g.first.timeline).Supplies (g.first.no + (id - 1)) := .inr (tailOf_isSome_iff.mp htail)
      simp only [storedPart, if_pos hmem, Option.getD_some]
      rw [headOf, show (g.segment _).no = g.first.no + (id.val - 1) from rfl,
        show (g.segment _).timeline = g.first.timeline from rfl, hsupplies'.head_eq, Nat.add_assoc,
        Nat.sub_add_cancel (Nat.one_le_iff_ne_zero.mpr hid)]
  obtain ⟨hmem, htail⟩ := hall id
  have hrest : ((storedPart wal g segments).walTails id).getD [] =
      ((wal g.first.timeline).crossing (g.first.no + id)).rest := by
    simp only [storedPart, if_pos hmem, tailOf_eq htail, Option.getD_some]
    rfl
  rw [WalPartFile.recordData, hhead, hrest, Carry.head_append_rest]
  rfl

theorem combineRecordsOf_eq {p : WalPartFile} {crossing : Position → Carry}
    (h : ∀ id, p.recordData id = (crossing id).unfinished.flatMap RawRecord.data) (ids : List Position) :
    p.combineRecordsOf ids = .ok (ids.flatMap fun id => (crossing id).unfinished.map RawRecord.record) := by
  induction ids with
  | nil => rfl
  | cons id ids ih =>
    rw [WalPartFile.combineRecordsOf, h id, ih, flatMap_cons]
    cases crossing id with
    | boundary => rfl
    | idle => rfl
    | cut s =>
      have hne : s.raw.data ≠ [] := ne_nil_of_length_pos (Nat.lt_of_le_of_lt (Nat.zero_le _) s.written_lt)
      rw [Carry.unfinished, flatMap_singleton, if_neg hne, s.raw.parses]
      rfl

/-- The records that cross the borders are all put together. -/
theorem combineRecords_storedPart (hcomplete : (storedPart wal g segments).isComplete)
    (hsupplies : ∀ s, g.preceding = some s → (wal s.timeline).Supplies s.no) :
    (storedPart wal g segments).combineRecords = .ok (crossingRecords wal g) :=
  combineRecordsOf_eq (recordData_storedPart hcomplete hsupplies) _

/-- The locations of all records that end in a segment. -/
def endingLocations (wal : ℕ → WalStream) (s : WalSegment w) : List BlockLocation :=
  extractBlockLocations (((wal s.timeline).segment s.no).completed.map RawRecord.record)

theorem endingLocations_eq {s : WalSegment w} (h : (tailOf wal s).isSome) : endingLocations wal s =
    extractBlockLocations ((crossingOf wal s).map RawRecord.record) ++ innerLocations wal s := by
  rw [endingLocations, (wal s.timeline).completed_eq (tailOf_isSome_iff.mp h), map_append,
    SegmentRecorder.extractBlockLocations_append]
  rfl

theorem mem_storedDelta_iff {location : BlockLocation} : location ∈ (storedDelta wal g segments).locations ↔
    ∃ id, g.segment id ∈ segments ∧ location ∈ innerLocations wal (g.segment id) := by
  simp only [storedDelta, mem_flatMap, mem_filter, decide_eq_true_eq]
  constructor
  · rintro ⟨s, ⟨hs, rfl⟩, hlocation⟩
    exact ⟨position s, by rwa [DeltaGroup.segment_position], by rwa [DeltaGroup.segment_position]⟩
  · rintro ⟨id, hid, hlocation⟩
    exact ⟨_, ⟨hid, g.group_segment id⟩, hlocation⟩

theorem mem_crossingRecords_iff {location : BlockLocation} :
    location ∈ extractBlockLocations (crossingRecords wal g) ↔
      ∃ id, location ∈ extractBlockLocations ((crossingOf wal (g.segment id)).map RawRecord.record) := by
  simp only [crossingRecords, extractBlockLocations, mem_flatMap, mem_finRange, true_and]
  constructor
  · rintro ⟨record, ⟨id, hrecord⟩, hlocation⟩
    exact ⟨id, record, hrecord, hlocation⟩
  · rintro ⟨id, record, hrecord, hlocation⟩
    exact ⟨record, ⟨id, hrecord⟩, hlocation⟩

end Completeness

end WalG.Delta
