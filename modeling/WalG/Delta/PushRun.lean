import WalG.Delta.Flush
import WalG.Delta.StreamEquivalence

/-! # One push over the data folder

A push loads files from the folder, records segments, wipes the folder and writes back what it has
loaded.
-/
namespace WalG.Delta
open Foundation PageFile Backup XLog Wal DeltaFileManager

variable {w : WalSize} (wal : ℕ → WalStream)

/-- One push: segments are recorded, then all files are flushed. -/
structure PushRun (folder : Table DataFile Bytes) (segments : List (WalSegment w)) (folder' : Table DataFile Bytes)
    (uploads : List (Text × DeltaFile)) : Prop where
  run : ∃ m m' partOrder deltaOrder, RecordsSegments wal segments (newDeltaFileManager folder) m ∧
    m.flushFiles partOrder deltaOrder = (m', uploads) ∧ folder' = m'.dataFolder

/-- What is stored in the folder of a group: parts of some segments, and locations of some segments. -/
structure FolderHolds (g : DeltaGroup w) (folder : Table DataFile Bytes)
    (parts located : List (WalSegment w)) : Prop where
  part : (newDeltaFileManager folder).loadPartFile g.name = .ok (storedPart wal g parts)
  delta : (newDeltaFileManager folder).loadDeltaFileWriter g.name = .ok (storedDelta wal g located)

section Folder

variable {wal} {g : DeltaGroup w} {folder : Table DataFile Bytes}

theorem FolderHolds.none (hpart : folder.get (.part g.name) = none) (hdelta : folder.get (.delta g.name) = none) :
    FolderHolds wal g folder [] [] :=
  ⟨loadPartFile_absent wal g hpart, loadDeltaFileWriter_absent wal g hdelta⟩

theorem tailOf_length_lt {s : WalSegment w} {data : Bytes} (h : tailOf wal s = some data) : data.length < 2 ^ 32 := by
  rw [tailOf, WalStream.tail] at h
  split_ifs at h
  rw [← Option.some.inj h]
  exact Carry.rest_length_lt _

theorem headOf_length_lt (s : WalSegment w) : (headOf wal s).length < 2 ^ 32 := (wal s.timeline).head_length_lt s.no

theorem storedPart_fits (parts : List (WalSegment w)) : (storedPart wal g parts).Fits := by
  refine ⟨fun id data h => ?_, fun data h => ?_, fun id data h => ?_⟩
  · simp only [storedPart] at h
    split_ifs at h
    exact tailOf_length_lt h
  · obtain ⟨s, -, hs⟩ := Option.bind_eq_some_iff.mp h
    split_ifs at hs
    rw [← Option.some.inj hs]
    exact headOf_length_lt s
  · simp only [storedPart] at h
    split_ifs at h
    rw [← Option.some.inj h]
    exact headOf_length_lt _

theorem storedDelta_reload {located : List (WalSegment w)}
    (h : ∀ s ∈ located, terminalLocation ∉ innerLocations wal s) :
    loadDeltaFile (saveDeltaFile (storedDelta wal g located)).1 = .ok (storedDelta wal g located) := by
  have hterminal : terminalLocation ∉ (storedDelta wal g located).locations := by
    intro hmem
    obtain ⟨s, hs, hlocation⟩ := List.mem_flatMap.mp hmem
    exact h s (List.mem_of_mem_filter hs) hlocation
  have hsave : saveDeltaFile (storedDelta wal g located) = ((saveDeltaFile (storedDelta wal g located)).1, none) := rfl
  rw [loadDeltaFile_save hsave hterminal (show 0 < 2 ^ 32 by decide)]
  rfl

end Folder

section Group

variable {wal} {g : DeltaGroup w} {folder folder' : Table DataFile Bytes} {segments parts located : List (WalSegment w)}
  {uploads : List (Text × DeltaFile)}

theorem FolderHolds.written (hpart : folder.get (.part g.name) = some (storedPart wal g parts).save)
    (hdelta : (newDeltaFileManager folder).loadDeltaFileWriter g.name = .ok (storedDelta wal g located)) :
    FolderHolds wal g folder parts located := by
  refine ⟨?_, hdelta⟩
  rw [DeltaFileManager.loadPartFile, newDeltaFileManager, hpart]
  exact WalPartFile.loadPartFile_save (storedPart_fits parts)

theorem loadDeltaFileWriter_written
    (h : folder.get (.delta g.name) = some (saveDeltaFile (storedDelta wal g located)).1)
    (hterminal : ∀ s ∈ located, terminalLocation ∉ innerLocations wal s) :
    (newDeltaFileManager folder).loadDeltaFileWriter g.name = .ok (storedDelta wal g located) := by
  rw [DeltaFileManager.loadDeltaFileWriter, newDeltaFileManager, h]
  exact storedDelta_reload hterminal

/-- A push can be run on a folder whose files can be loaded. -/
theorem exists_pushRun (hholds : ∀ g : DeltaGroup w, ∃ parts located, FolderHolds wal g folder parts located)
    (segments : List (WalSegment w))
    (hnext : ∀ s ∈ segments, position s = lastPosition → ∃ g : DeltaGroup w, g.preceding = some s) :
    ∃ folder' uploads, PushRun wal folder segments folder' uploads := by
  have htracks (g : DeltaGroup w) : ∃ parts located, Tracks wal g parts located [] (newDeltaFileManager folder) := by
    obtain ⟨parts, located, h⟩ := hholds g
    exact ⟨parts, located, .start h.part h.delta⟩
  obtain ⟨m, hrecords⟩ := exists_recordsSegments htracks segments hnext
  exact ⟨_, _, m, _, .given Text, .given Text, hrecords, rfl, rfl⟩

section Push

variable (h : PushRun wal folder segments folder' uploads) (hholds : FolderHolds wal g folder parts located)

include h hholds

theorem PushRun.tracks :
    ∃ m, Tracks wal g parts located segments m ∧ (m.view g.name).canceled = false ∧
      folder'.get (.part g.name) = (m.view g.name).flush.1.partData ∧
      folder'.get (.delta g.name) = (m.view g.name).flush.1.deltaData ∧
      uploadedAs g.name uploads = (m.view g.name).flush.2 := by
  obtain ⟨m, m', partOrder, deltaOrder, hrecords, hflush, rfl⟩ := h.run
  have hview := m.flushFiles_view partOrder deltaOrder g.name
  rw [hflush] at hview
  have hcanceled : m.canceledDeltaFiles = [] := hrecords.canceled
  refine ⟨m, (Tracks.start hholds.part hholds.delta).run hrecords, ?_, ?_, ?_, ?_⟩
  · simp [view, hcanceled]
  · rw [← hview]
    rfl
  · rw [← hview]
    rfl
  · rw [← hview]

theorem PushRun.untouched (htouches : ¬ ∃ s ∈ segments, g.Touches s) :
    folder'.get (.part g.name) = none ∧ folder'.get (.delta g.name) = none ∧ uploadedAs g.name uploads = [] := by
  obtain ⟨m, htracks, -, hpart, hdelta, huploads⟩ := h.tracks hholds
  have hnone : ¬ ∃ s ∈ segments, group s = g := fun ⟨s, hs, hgroup⟩ => htouches ⟨s, hs, .inl hgroup⟩
  rw [GroupView.flush_absent (htracks.part_none htouches) (htracks.delta_none hnone)] at hpart hdelta huploads
  exact ⟨hpart, hdelta, huploads⟩

/-- The files of a group that is not complete are written back as far as they are loaded. -/
theorem PushRun.incomplete
    (htouches : ∃ s ∈ segments, g.Touches s) (hcomplete : (storedPart wal g (parts ++ segments)).isComplete = false) :
    folder'.get (.part g.name) = some (storedPart wal g (parts ++ segments)).save ∧
      ((∃ s ∈ segments, group s = g) →
        folder'.get (.delta g.name) = some (saveDeltaFile (storedDelta wal g (located ++ segments))).1) ∧
      ((¬ ∃ s ∈ segments, group s = g) → folder'.get (.delta g.name) = none) ∧ uploadedAs g.name uploads = [] := by
  obtain ⟨m, htracks, hcanceled, hpart, hdelta, huploads⟩ := h.tracks hholds
  rw [GroupView.flush_incomplete (htracks.part htouches) hcanceled hcomplete] at hpart hdelta huploads
  refine ⟨hpart, fun hsegments => ?_, fun hsegments => ?_, huploads⟩
  · rw [hdelta, show (m.view g.name).delta = _ from htracks.delta hsegments]
    rfl
  · rw [hdelta, show (m.view g.name).delta = _ from htracks.delta_none hsegments]
    rfl

/-- The files of a complete group are gone, and what is uploaded has the locations so far and those of the records put
together. -/
theorem PushRun.complete
    (htouches : ∃ s ∈ segments, g.Touches s) (hcomplete : (storedPart wal g (parts ++ segments)).isComplete) :
    folder'.get (.part g.name) = none ∧ folder'.get (.delta g.name) = none ∧
      ∀ d, (g.name, d) ∈ uploads → ∃ records, (storedPart wal g (parts ++ segments)).combineRecords = .ok records ∧
        d.locations = (storedDelta wal g (located ++ segments)).locations ++ extractBlockLocations records := by
  obtain ⟨m, htracks, hcanceled, hpart, hdelta, huploads⟩ := h.tracks hholds
  obtain ⟨hflushPart, hflushDelta, hflush⟩ := GroupView.flush_complete (htracks.part htouches) hcanceled hcomplete
  refine ⟨hpart.trans hflushPart, hdelta.trans hflushDelta, fun d hd => ?_⟩
  rw [← mem_uploadedAs_iff, huploads] at hd
  obtain ⟨d₀, records, hd₀, hrecords, hlocations⟩ := hflush d hd
  have hview := htracks.deltaFile
  rw [deltaFile_of_get hd₀] at hview
  rw [Except.ok.inj hview] at hlocations
  exact ⟨records, hrecords, hlocations⟩

/-- After any push the folder holds parts and locations of segments that were recorded. -/
theorem PushRun.holds (hterminal : ∀ s ∈ located ++ segments, terminalLocation ∉ innerLocations wal s) :
    ∃ parts' located', FolderHolds wal g folder' parts' located' ∧ ∀ s ∈ located', s ∈ located ++ segments := by
  by_cases htouches : ∃ s ∈ segments, g.Touches s
  · cases hcomplete : (storedPart wal g (parts ++ segments)).isComplete with
    | true =>
      obtain ⟨hpart, hdelta, -⟩ := h.complete hholds htouches hcomplete
      exact ⟨[], [], .none hpart hdelta, by simp⟩
    | false =>
      obtain ⟨hpart, hloaded, habsent, -⟩ := h.incomplete hholds htouches hcomplete
      by_cases hsegments : ∃ s ∈ segments, group s = g
      · exact ⟨_, _, .written hpart (loadDeltaFileWriter_written (hloaded hsegments) hterminal), fun _ hs => hs⟩
      · exact ⟨_, [], .written hpart (loadDeltaFileWriter_absent wal g (habsent hsegments)), by simp⟩
  · obtain ⟨hpart, hdelta, -⟩ := h.untouched hholds htouches
    exact ⟨[], [], .none hpart hdelta, by simp⟩

theorem PushRun.uploads_complete (hsegments : ∃ s ∈ segments, group s = g)
    (hcomplete : (storedPart wal g (parts ++ segments)).isComplete)
    (hsupplies : ∀ s, g.preceding = some s → (wal s.timeline).Supplies s.no) :
    ∃ d, (g.name, d) ∈ uploads ∧ d.locations = (combinedDelta wal g (located ++ segments)).locations := by
  obtain ⟨m, htracks, hcanceled, -, -, huploads⟩ := h.tracks hholds
  obtain ⟨s, hs, hgroup⟩ := hsegments
  rw [GroupView.flush_combined (htracks.part ⟨s, hs, .inl hgroup⟩) hcanceled hcomplete
    (htracks.delta ⟨s, hs, hgroup⟩) (combineRecords_storedPart hcomplete hsupplies)] at huploads
  have hmem : ∀ d ∈ uploadedAs g.name uploads, (g.name, d) ∈ uploads := fun d => mem_uploadedAs_iff.mp
  rw [huploads, List.forall_mem_singleton] at hmem
  exact ⟨_, hmem, rfl⟩

end Push

end Group

end WalG.Delta
