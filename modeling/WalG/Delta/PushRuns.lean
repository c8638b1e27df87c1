import WalG.Delta.PushRun

/-! # Pushes one after the other over one data folder

Between two pushes the files of a group survive only if the push in between loads them.
-/
namespace WalG.Delta
open Foundation PageFile Backup XLog Wal DeltaFileManager List

variable {w : WalSize} (wal : ℕ → WalStream)

/-- Pushes one after the other that meet a condition, and all that they upload. -/
inductive Pushes (condition : Table DataFile Bytes → List (WalSegment w) → Prop) :
    Table DataFile Bytes → List (Text × DeltaFile) → Prop where
  | start : Pushes condition .empty []
  | run {folder folder' : Table DataFile Bytes} {segments : List (WalSegment w)} {uploads new : List (Text × DeltaFile)}
      (h : Pushes condition folder uploads) (hcondition : condition folder segments)
      (hrun : PushRun wal folder segments folder' new) : Pushes condition folder' (uploads ++ new)

/-- Every delta file of a group has the locations of all records that end in the segments of the group. -/
def CoversGroups (w : WalSize) (uploads : List (Text × DeltaFile)) : Prop :=
  ∀ (g : DeltaGroup w) (d : DeltaFile), (g.name, d) ∈ uploads →
    ∀ id, ∀ location ∈ endingLocations wal (g.segment id), location ∈ d.locations

/-- The push loads the delta file of the group that follows a last segment, or there is none; no record covers a whole
last segment, and none that lies in a segment names the zero location. -/
structure LoadsFollowing (folder : Table DataFile Bytes) (segments : List (WalSegment w)) : Prop where
  following : ∀ s ∈ segments, ∀ g : DeltaGroup w, g.preceding = some s →
    (∃ t ∈ segments, group t = g) ∨ folder.get (.delta g.name) = none
  supplies : ∀ s ∈ segments, position s = lastPosition → (wal s.timeline).Supplies s.no
  terminal : ∀ s ∈ segments, terminalLocation ∉ innerLocations wal s

/-- The invariant between two pushes: each segment of the group with parts has its locations. -/
structure FolderOk (g : DeltaGroup w) (folder : Table DataFile Bytes) (parts located : List (WalSegment w)) : Prop
    extends FolderHolds wal g folder parts located where
  covered : ∀ s ∈ parts, group s = g → s ∈ located
  absent : folder.get (.delta g.name) = none → ∀ s ∈ parts, group s ≠ g
  supplies : ∀ s ∈ parts, g.preceding = some s → (wal s.timeline).Supplies s.no
  terminal : ∀ s ∈ located, terminalLocation ∉ innerLocations wal s

section Group

variable {wal} {g : DeltaGroup w} {folder folder' : Table DataFile Bytes} {segments parts located : List (WalSegment w)}
  {uploads : List (Text × DeltaFile)}

theorem FolderOk.none (hpart : folder.get (.part g.name) = none) (hdelta : folder.get (.delta g.name) = none) :
    FolderOk wal g folder [] [] where
  toFolderHolds := .none hpart hdelta
  covered := by simp
  absent := by simp
  supplies := by simp
  terminal := by simp

variable (hok : FolderOk wal g folder parts located)

include hok

theorem FolderOk.covered_append {s : WalSegment w} (hs : s ∈ parts ++ segments) (hgroup : group s = g) :
    s ∈ located ++ segments := by
  rcases mem_append.mp hs with hs | hs
  · exact mem_append_left _ (hok.covered s hs hgroup)
  · exact mem_append_right _ hs

variable (hcondition : LoadsFollowing wal folder segments)

include hcondition

theorem FolderOk.supplies_append {s : WalSegment w} (hs : s ∈ parts ++ segments) (hpreceding : g.preceding = some s) :
    (wal s.timeline).Supplies s.no := by
  rcases mem_append.mp hs with hs | hs
  · exact hok.supplies s hs hpreceding
  · exact hcondition.supplies s hs (preceding_position hpreceding)

theorem PushRun.folderOk (h : PushRun wal folder segments folder' uploads) :
    ∃ parts' located', FolderOk wal g folder' parts' located' := by
  by_cases htouches : ∃ s ∈ segments, g.Touches s
  · cases hcomplete : (storedPart wal g (parts ++ segments)).isComplete with
    | true =>
      obtain ⟨hpart, hdelta, -⟩ := h.complete hok.toFolderHolds htouches hcomplete
      exact ⟨[], [], .none hpart hdelta⟩
    | false =>
      obtain ⟨hpart, hloaded, habsent, -⟩ := h.incomplete hok.toFolderHolds htouches hcomplete
      by_cases hsegments : ∃ s ∈ segments, group s = g
      · have hterminal : ∀ s ∈ located ++ segments, terminalLocation ∉ innerLocations wal s := by
          intro s hs hmem
          rcases mem_append.mp hs with hs | hs
          · exact hok.terminal s hs hmem
          · exact hcondition.terminal s hs hmem
        refine ⟨parts ++ segments, located ++ segments,
          ⟨.written hpart (loadDeltaFileWriter_written (hloaded hsegments) hterminal), fun s => hok.covered_append,
            fun hnone => ?_, fun s => hok.supplies_append hcondition, hterminal⟩⟩
        rw [hloaded hsegments] at hnone
        cases hnone
      · -- only the previous head was set, so there was no delta file to lose
        obtain ⟨s, hs, hgroup | hpreceding⟩ := htouches
        · exact absurd ⟨s, hs, hgroup⟩ hsegments
        · have hnone : folder.get (.delta g.name) = none :=
            (hcondition.following s hs g hpreceding).resolve_left hsegments
          have hother : ∀ t ∈ parts ++ segments, group t ≠ g := by
            intro t ht hgroup
            rcases mem_append.mp ht with ht | ht
            · exact hok.absent hnone t ht hgroup
            · exact hsegments ⟨t, ht, hgroup⟩
          exact ⟨parts ++ segments, [], ⟨.written hpart (loadDeltaFileWriter_absent wal g (habsent hsegments)),
            fun t ht hgroup => absurd hgroup (hother t ht), fun _ => hother, fun s => hok.supplies_append hcondition,
            by simp⟩⟩
  · obtain ⟨hpart, hdelta, -⟩ := h.untouched hok.toFolderHolds htouches
    exact ⟨[], [], .none hpart hdelta⟩

theorem PushRun.covers (h : PushRun wal folder segments folder' uploads) {d : DeltaFile}
    (hd : (g.name, d) ∈ uploads) (id : Position)
    {location : BlockLocation} (hlocation : location ∈ endingLocations wal (g.segment id)) :
    location ∈ d.locations := by
  rw [← mem_uploadedAs_iff] at hd
  by_cases htouches : ∃ s ∈ segments, g.Touches s
  · cases hcomplete : (storedPart wal g (parts ++ segments)).isComplete with
    | true =>
      obtain ⟨⟨s, hs, hpreceding⟩, hall⟩ := storedPart_isComplete_iff.mp hcomplete
      obtain ⟨-, -, huploads⟩ := h.complete hok.toFolderHolds htouches hcomplete
      obtain ⟨records, hrecords, hlocations⟩ := huploads d (mem_uploadedAs_iff.mp hd)
      have hsupplies : ∀ t, g.preceding = some t → (wal t.timeline).Supplies t.no := by
        intro t ht
        cases hpreceding.symm.trans ht
        exact hok.supplies_append hcondition hs hpreceding
      rw [combineRecords_storedPart hcomplete hsupplies] at hrecords
      have hlocated (id : Position) : g.segment id ∈ located ++ segments :=
        hok.covered_append (hall id).1 (g.group_segment id)
      rw [hlocations, ← Except.ok.inj hrecords]
      exact (mem_combinedDelta_iff hcomplete hlocated location).mpr ⟨id, hlocation⟩
    | false =>
      rw [(h.incomplete hok.toFolderHolds htouches hcomplete).2.2.2] at hd
      cases hd
  · rw [(h.untouched hok.toFolderHolds htouches).2.2] at hd
    cases hd

end Group

/-- While every push loads the delta file of the group behind each last segment it records, every delta file that is
uploaded has all locations of its group. -/
theorem pushes_cover_groups {wal : ℕ → WalStream} {folder : Table DataFile Bytes} {uploads : List (Text × DeltaFile)}
    (h : Pushes wal (@LoadsFollowing w wal) folder uploads) : CoversGroups wal w uploads := by
  have hinvariant : (∀ g : DeltaGroup w, ∃ parts located, FolderOk wal g folder parts located) ∧
      CoversGroups wal w uploads := by
    induction h with
    | start => exact ⟨fun g => ⟨[], [], .none rfl rfl⟩, fun g d hd => by cases hd⟩
    | run _ hcondition hrun ih =>
      obtain ⟨hfolder, hcovers⟩ := ih
      refine ⟨fun g => ?_, fun g d hd id location hlocation => ?_⟩
      · obtain ⟨parts, located, hok⟩ := hfolder g
        exact hrun.folderOk hok hcondition
      · rcases mem_append.mp hd with hd | hd
        · exact hcovers g d hd id location hlocation
        · obtain ⟨parts, located, hok⟩ := hfolder g
          exact hrun.covers hok hcondition hd id hlocation
  exact hinvariant.2

section Sample

variable (id : Position) {s : WalSegment .default}

theorem sample_group (hs : s ∈ sampleOrder) : s = samplePreceding ∨ ∃ id, s = sampleGroup.segment id := by
  rcases mem_cons.mp hs with rfl | hs
  · exact .inl rfl
  · obtain ⟨id, -, rfl⟩ := mem_map.mp hs
    exact .inr ⟨id, rfl⟩

theorem sampleGroup_mem : sampleGroup.segment id ∈ sampleOrder :=
  mem_cons_of_mem _ (mem_map_of_mem (mem_finRange id))

theorem endingLocations_sample :
    endingLocations sampleWal (sampleGroup.segment id) = if id.val = 0 then [changedBlock] else [] := by
  rw [endingLocations, (sampleWal_segment id).2]
  split_ifs <;> rfl

theorem innerLocations_sample :
    innerLocations sampleWal (sampleGroup.segment id) = if id.val = 0 then [changedBlock] else [] := by
  rw [innerLocations, WalStream.inner, (sampleWal_segment id).1, (sampleWal_segment id).2]
  split_ifs <;> rfl

theorem crossingRecords_sample : crossingRecords sampleWal sampleGroup = [] := by
  rw [crossingRecords, flatMap_eq_nil_iff]
  intro id _
  rw [crossingOf, (sampleWal_segment id).1]
  rfl

theorem innerLocations_samplePreceding : innerLocations sampleWal samplePreceding = [] := by
  rw [innerLocations, WalStream.inner, sampleWal_preceding.1, sampleWal_preceding.2]
  rfl

theorem sample_terminal (hs : s ∈ sampleOrder) : terminalLocation ∉ innerLocations sampleWal s := by
  rcases sample_group hs with rfl | ⟨id, rfl⟩
  · rw [innerLocations_samplePreceding]
    exact not_mem_nil
  · rw [innerLocations_sample]
    split_ifs <;> decide

/-- Files of the sample only. -/
def HoldsSample (folder : Table DataFile Bytes) : Prop :=
  ∀ g, ∃ parts located, FolderHolds sampleWal g folder parts located ∧ ∀ s ∈ located, s ∈ sampleOrder

theorem HoldsSample.push {folder : Table DataFile Bytes} (h : HoldsSample folder)
    (segments : List (WalSegment .default)) (hsegments : ∀ s ∈ segments, s ∈ sampleOrder) :
    ∃ folder' uploads, PushRun sampleWal folder segments folder' uploads ∧ HoldsSample folder' := by
  obtain ⟨folder', uploads, hrun⟩ := exists_pushRun
    (fun g => by obtain ⟨parts, located, hholds, -⟩ := h g; exact ⟨parts, located, hholds⟩) segments
    fun s hs => sample_following (hsegments s hs)
  refine ⟨folder', uploads, hrun, fun g => ?_⟩
  obtain ⟨parts, located, hholds, hlocated⟩ := h g
  have hall : ∀ s ∈ located ++ segments, s ∈ sampleOrder := by
    intro s hs
    rcases mem_append.mp hs with hs | hs
    · exact hlocated s hs
    · exact hsegments s hs
  obtain ⟨parts', located', hholds', hsubset⟩ := hrun.holds hholds fun s hs => sample_terminal (hall s hs)
  exact ⟨parts', located', hholds', fun s hs => hall s (hsubset s hs)⟩

theorem sample_incomplete {segments : List (WalSegment .default)} (h : sampleGroup.segment lastPosition ∉ segments) :
    (storedPart sampleWal sampleGroup segments).isComplete = false := by
  rw [← Bool.not_eq_true, storedPart_isComplete_iff]
  exact fun hcomplete => h (hcomplete.2 lastPosition).1

theorem HoldsSample.empty : HoldsSample .empty := fun g => ⟨[], [], .none rfl rfl, by simp⟩

theorem sample_loadsFollowing : LoadsFollowing sampleWal .empty sampleOrder where
  following s hs g hg := .inr rfl
  supplies s hs hposition := by
    rcases sample_group hs with rfl | ⟨id, rfl⟩
    · exact sample_supplies
    · rw [WalStream.Supplies, (sampleWal_segment id).1]
      exact .inl rfl
  terminal s hs := sample_terminal hs

theorem sample_supplies_preceding (hs : sampleGroup.preceding = some s) : (sampleWal s.timeline).Supplies s.no := by
  rw [sampleGroup_preceding] at hs
  rw [← Option.some.inj hs]
  exact sample_supplies

/-- One push of all the segments uploads the change. -/
theorem pushes_cover_groups_sample : ∃ folder uploads d,
    Pushes sampleWal (@LoadsFollowing .default sampleWal) folder uploads ∧
    (sampleGroup.name, d) ∈ uploads ∧ changedBlock ∈ d.locations := by
  obtain ⟨folder, uploads, hrun, -⟩ := HoldsSample.empty.push sampleOrder fun s hs => hs
  have hpushes : Pushes sampleWal (@LoadsFollowing .default sampleWal) folder ([] ++ uploads) :=
    .run .start sample_loadsFollowing hrun
  obtain ⟨d, hd, -⟩ := hrun.uploads_complete (.none rfl rfl)
    ⟨_, sampleGroup_mem lastPosition, sampleGroup.group_segment _⟩
    (sample_complete mem_cons_self sampleGroup_mem) fun s => sample_supplies_preceding
  refine ⟨folder, uploads, d, hpushes, hd, pushes_cover_groups hpushes sampleGroup d hd ⟨0, walFileInDelta_pos⟩ _ ?_⟩
  rw [endingLocations_sample]
  exact mem_singleton_self _

/-- The group without its last segment. -/
def sampleStart : List (WalSegment .default) :=
  ((finRange walFileInDelta).filter fun id => id ≠ lastPosition).map sampleGroup.segment

theorem mem_sampleStart_iff : sampleGroup.segment id ∈ sampleStart ↔ id ≠ lastPosition := by
  simp [sampleStart, sampleGroup.segment_injective.eq_iff]

theorem lastSegment_notMem_sampleStart : sampleGroup.segment lastPosition ∉ sampleStart :=
  fun h => (mem_sampleStart_iff lastPosition).mp h rfl

theorem samplePreceding_group : group samplePreceding ≠ sampleGroup := preceding_group_ne sampleGroup_preceding

variable {folder folder' : Table DataFile Bytes} {uploads : List (Text × DeltaFile)}

theorem sample_firstPush (h : PushRun sampleWal .empty sampleStart folder' uploads) :
    FolderHolds sampleWal sampleGroup folder' sampleStart sampleStart := by
  have hsegments : ∃ s ∈ sampleStart, group s = sampleGroup :=
    ⟨_, (mem_sampleStart_iff ⟨0, walFileInDelta_pos⟩).mpr (by decide), sampleGroup.group_segment _⟩
  obtain ⟨s, hs, hgroup⟩ := hsegments
  obtain ⟨hpart, hdelta, -, -⟩ := h.incomplete (.none rfl rfl) ⟨s, hs, .inl hgroup⟩
    (sample_incomplete lastSegment_notMem_sampleStart)
  refine .written hpart (loadDeltaFileWriter_written (hdelta ⟨s, hs, hgroup⟩) fun t ht => sample_terminal ?_)
  obtain ⟨id, -, rfl⟩ := mem_map.mp ht
  exact sampleGroup_mem id

/-- The part file is loaded for the previous head and written back, the delta file is not. -/
theorem sample_secondPush (hholds : FolderHolds sampleWal sampleGroup folder sampleStart sampleStart)
    (h : PushRun sampleWal folder [samplePreceding] folder' uploads) :
    FolderHolds sampleWal sampleGroup folder' (sampleStart ++ [samplePreceding]) [] := by
  have hnotMem : sampleGroup.segment lastPosition ∉ sampleStart ++ [samplePreceding] := by
    rw [mem_append, mem_singleton]
    rintro (hstart | hpreceding)
    · exact lastSegment_notMem_sampleStart hstart
    · exact samplePreceding_group (hpreceding ▸ sampleGroup.group_segment _)
  obtain ⟨hpart, -, hdelta, -⟩ := h.incomplete hholds
    ⟨_, mem_singleton_self _, .inr sampleGroup_preceding⟩ (sample_incomplete hnotMem)
  refine .written hpart (loadDeltaFileWriter_absent _ _ (hdelta ?_))
  rintro ⟨s, hs, hgroup⟩
  rw [mem_singleton.mp hs] at hgroup
  exact samplePreceding_group hgroup

theorem sample_thirdPush (hholds : FolderHolds sampleWal sampleGroup folder (sampleStart ++ [samplePreceding]) [])
    (h : PushRun sampleWal folder [sampleGroup.segment lastPosition] folder' uploads) :
    ∃ d, (sampleGroup.name, d) ∈ uploads ∧ d.locations = [] := by
  have hcomplete : (storedPart sampleWal sampleGroup
      (sampleStart ++ [samplePreceding] ++ [sampleGroup.segment lastPosition])).isComplete := by
    refine sample_complete (by simp) fun id => ?_
    by_cases hid : id = lastPosition
    · simp [hid]
    · exact mem_append_left _ (mem_append_left _ ((mem_sampleStart_iff id).mpr hid))
  obtain ⟨d, hd, hlocations⟩ := h.uploads_complete hholds
    ⟨_, mem_singleton_self _, sampleGroup.group_segment _⟩ hcomplete fun s => sample_supplies_preceding
  refine ⟨d, hd, ?_⟩
  rw [hlocations, combinedDelta, crossingRecords_sample, storedDelta_own _ _ (sampleGroup.group_segment _),
    innerLocations_sample]
  rfl

/-- A first push records the group but for its last segment, a second one the segment before the group, a third one the
last segment: the delta file that is uploaded lacks the block that was changed in the first segment of the group. -/
theorem pushes_lose_locations : ∃ folder₁ folder₂ folder₃ uploads₁ uploads₂ uploads₃ d,
    PushRun sampleWal .empty sampleStart folder₁ uploads₁ ∧
      PushRun sampleWal folder₁ [samplePreceding] folder₂ uploads₂ ∧
      PushRun sampleWal folder₂ [sampleGroup.segment lastPosition] folder₃ uploads₃ ∧
      (sampleStart ++ [samplePreceding] ++ [sampleGroup.segment lastPosition]).Nodup ∧
      (sampleGroup.name, d) ∈ uploads₃ ∧
      changedBlock ∈ endingLocations sampleWal (sampleGroup.segment ⟨0, walFileInDelta_pos⟩) ∧
      changedBlock ∉ d.locations := by
  obtain ⟨folder₁, uploads₁, hrun₁, hholds₁⟩ := HoldsSample.empty.push sampleStart fun s hs => by
    obtain ⟨id, -, rfl⟩ := mem_map.mp hs
    exact sampleGroup_mem id
  obtain ⟨folder₂, uploads₂, hrun₂, hholds₂⟩ := hholds₁.push [samplePreceding] (by simp [sampleOrder])
  obtain ⟨folder₃, uploads₃, hrun₃, -⟩ := hholds₂.push [sampleGroup.segment lastPosition] fun s hs => by
    rw [mem_singleton.mp hs]
    exact sampleGroup_mem _
  obtain ⟨d, hd, hlocations⟩ := sample_thirdPush (sample_secondPush (sample_firstPush hrun₁) hrun₂) hrun₃
  refine ⟨folder₁, folder₂, folder₃, uploads₁, uploads₂, uploads₃, d, hrun₁, hrun₂, hrun₃, ?_, hd, ?_, ?_⟩
  · decide
  · rw [endingLocations_sample]
    exact mem_singleton_self _
  · rw [hlocations]
    exact not_mem_nil

end Sample

end WalG.Delta
