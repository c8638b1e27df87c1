import WalG.Delta.SegmentEffect

/-! # Flushing, group by group

A flush treats each loaded file under its own name, so what becomes of the files of one group does
not depend on the others, nor on the order in which the files are met.
-/
namespace WalG.Delta
open Foundation PageFile Backup XLog Wal DeltaFileManager

/-- What the manager and its folder have under one name. -/
@[ext] structure GroupView where
  part : Option WalPartFile
  delta : Option DeltaFile
  partData : Option Bytes
  deltaData : Option Bytes
  canceled : Bool

namespace GroupView

/-- The crossing records put together, and whether that failed. -/
def combine (v : GroupView) (p : WalPartFile) : Bool × GroupView :=
  match v.delta with
  | none => (true, v)
  | some d =>
    let parser := loadWalParserFromCurrentRecordHead ((p.walHeads lastPosition).getD [])
    match p.combineRecords with
    | .error _ => (true, { v with delta := some { d with walParser := parser } })
    | .ok records => (false, { v with delta := some ⟨d.locations ++ extractBlockLocations records, parser⟩ })

/-- The part file is combined or written, and whether the group is complete. -/
def flushPart (state : GroupView × Bool) : GroupView × Bool :=
  match state.1.part with
  | none => state
  | some p =>
    if state.1.canceled then state
    else if p.isComplete then
      match state.1.combine p with
      | (false, v) => (v, true)
      | (true, v) => ({ v with canceled := true }, true)
    else ({ state.1 with partData := some p.save }, state.2)

/-- The delta file is uploaded or written. -/
def flushDelta (completed : Bool) (state : GroupView × List DeltaFile) : GroupView × List DeltaFile :=
  match state.1.delta with
  | none => state
  | some d =>
    if state.1.canceled then state
    else if completed then
      match saveDeltaFile d with
      | (_, some _) => state
      | (_, none) => (state.1, state.2 ++ [d])
    else ({ state.1 with deltaData := some (saveDeltaFile d).1 }, state.2)

/-- What a flush leaves of the files of a group, and what it uploads. -/
def flush (v : GroupView) : GroupView × List DeltaFile :=
  let flushed := flushPart ({ v with partData := none, deltaData := none }, false)
  flushDelta flushed.2 (flushed.1, [])

variable {v : GroupView} {p : WalPartFile}

theorem flush_absent (hpart : v.part = none) (hdelta : v.delta = none) :
    v.flush = ({ v with partData := none, deltaData := none }, []) := by
  simp [flush, flushPart, flushDelta, hpart, hdelta]

theorem flush_incomplete (hpart : v.part = some p) (hcanceled : v.canceled = false)
    (hcomplete : p.isComplete = false) :
    v.flush = ({ v with partData := some p.save, deltaData := v.delta.map fun d => (saveDeltaFile d).1 }, []) := by
  cases hdelta : v.delta <;> simp [flush, flushPart, flushDelta, hpart, hcanceled, hcomplete, hdelta]

theorem flush_complete (hpart : v.part = some p) (hcanceled : v.canceled = false) (hcomplete : p.isComplete) :
    v.flush.1.partData = none ∧ v.flush.1.deltaData = none ∧ ∀ d ∈ v.flush.2, ∃ d₀ records,
      v.delta = some d₀ ∧ p.combineRecords = .ok records ∧
        d.locations = d₀.locations ++ extractBlockLocations records := by
  cases hdelta : v.delta with
  | none => simp [flush, flushPart, flushDelta, combine, hpart, hcanceled, hcomplete, hdelta]
  | some d₀ =>
    cases hrecords : p.combineRecords with
    | error e => simp [flush, flushPart, flushDelta, combine, hpart, hcanceled, hcomplete, hdelta, hrecords]
    | ok records =>
      simp only [flush, flushPart, flushDelta, combine, hpart, hcanceled, hcomplete, hdelta, hrecords, if_true,
        Bool.false_eq_true, if_false]
      rcases saveDeltaFile _ with ⟨data, error⟩
      cases error <;> simp

theorem flush_combined (hpart : v.part = some p) (hcanceled : v.canceled = false) (hcomplete : p.isComplete)
    {d : DeltaFile} (hdelta : v.delta = some d) {records : List XLogRecord}
    (hrecords : p.combineRecords = .ok records) :
    v.flush.2 = [⟨d.locations ++ extractBlockLocations records,
      loadWalParserFromCurrentRecordHead ((p.walHeads lastPosition).getD [])⟩] := by
  simp [flush, flushPart, flushDelta, combine, hpart, hcanceled, hcomplete, hdelta, hrecords, saveDeltaFile,
    WalParser.save, loadWalParserFromCurrentRecordHead]

end GroupView

namespace DeltaFileManager

def view (m : DeltaFileManager) (name : Text) : GroupView :=
  ⟨m.partFiles.get name, m.deltaFileWriters.get name, m.dataFolder.get (.part name), m.dataFolder.get (.delta name),
    decide (name ∈ m.canceledDeltaFiles)⟩

/-- The delta files that are uploaded under a name. -/
def uploadedAs (name : Text) (uploads : List (Text × DeltaFile)) : List DeltaFile :=
  (uploads.filter fun upload => upload.1 = name).map Prod.snd

variable {m : DeltaFileManager} {name name' : Text}

theorem mem_uploadedAs_iff {uploads : List (Text × DeltaFile)} {d : DeltaFile} :
    d ∈ uploadedAs name uploads ↔ (name, d) ∈ uploads := by
  simp only [uploadedAs, List.mem_map, List.mem_filter, decide_eq_true_eq]
  constructor
  · rintro ⟨⟨name', d'⟩, ⟨hmem, rfl⟩, rfl⟩
    exact hmem
  · intro hmem
    exact ⟨(name, d), ⟨hmem, rfl⟩, rfl⟩

theorem view_consume_self (locations : List BlockLocation) : (m.consume name locations).view name = { m.view name with
      delta := (m.deltaFileWriters.get name).map fun d => { d with locations := d.locations ++ locations } } := by
  have h := consume_appends m name locations
  simp only [view, h.get_self, h.partFiles, h.dataFolder, h.canceledDeltaFiles]

theorem view_consume_other (locations : List BlockLocation) (hne : name' ≠ name) :
    (m.consume name locations).view name' = m.view name' := by
  have h := consume_appends m name locations
  simp only [view, h.get_other name' hne, h.partFiles, h.dataFolder, h.canceledDeltaFiles]

theorem combinePartFile_self (p : WalPartFile) :
    ((m.combinePartFile name p).1.isSome, (m.combinePartFile name p).2.view name) = (m.view name).combine p := by
  cases hget : m.deltaFileWriters.get name with
  | none => simp [combinePartFile, GroupView.combine, view, hget]
  | some d =>
    cases hrecords : p.combineRecords with
    | error e => simp [combinePartFile, GroupView.combine, view, hget, hrecords]
    | ok records =>
      simp only [combinePartFile, GroupView.combine, hget, hrecords, view_consume_self]
      simp [view, hget]

theorem combinePartFile_other (p : WalPartFile) (hne : name' ≠ name) :
    (m.combinePartFile name p).2.view name' = m.view name' := by
  cases hget : m.deltaFileWriters.get name with
  | none => simp only [combinePartFile, hget]
  | some d =>
    cases hrecords : p.combineRecords with
    | error e => simp only [combinePartFile, hget, hrecords, view, Table.get_set_of_ne _ hne]
    | ok records =>
      simp only [combinePartFile, hget, hrecords, view_consume_other _ hne]
      simp only [view, Table.get_set_of_ne _ hne]

theorem flushPartFile_self (state : DeltaFileManager × List Text) (name : Text) :
    ((flushPartFile state name).1.view name, decide (name ∈ (flushPartFile state name).2)) =
      GroupView.flushPart (state.1.view name, decide (name ∈ state.2)) := by
  rw [flushPartFile, GroupView.flushPart]
  cases hpart : state.1.partFiles.get name with
  | none => simp [view, hpart]
  | some p =>
    have hview : (state.1.view name).part = some p := hpart
    have hcanceled : (state.1.view name).canceled = decide (name ∈ state.1.canceledDeltaFiles) := rfl
    simp only [hview, hcanceled, decide_eq_true_eq]
    split_ifs with hname hcomplete
    · rfl
    · rw [← combinePartFile_self p]
      rcases state.1.combinePartFile name p with ⟨error, m'⟩
      cases error with
      | none => simp
      | some e => simp [view]
    · have hdelta : DataFile.delta name ≠ .part name := by simp
      simp [view, Table.get_set_of_ne _ hdelta, hpart]

theorem flushPartFile_other (state : DeltaFileManager × List Text) (name name' : Text) (hne : name' ≠ name) :
    ((flushPartFile state name).1.view name', decide (name' ∈ (flushPartFile state name).2)) =
      (state.1.view name', decide (name' ∈ state.2)) := by
  rw [flushPartFile]
  cases hpart : state.1.partFiles.get name with
  | none => rfl
  | some p =>
    dsimp only
    split_ifs with hname hcomplete
    · rfl
    · have hcombine := combinePartFile_other (m := state.1) p hne
      rcases hresult : state.1.combinePartFile name p with ⟨error, m'⟩
      rw [hresult] at hcombine
      cases error with
      | none => simp only [← hcombine, List.mem_cons, hne, false_or]
      | some e =>
        rw [← hcombine]
        simp [view, hne]
    · have hpart' : DataFile.part name' ≠ .part name := by simpa using hne
      have hdelta : DataFile.delta name' ≠ .part name := by simp
      simp [view, Table.get_set_of_ne _ hpart', Table.get_set_of_ne _ hdelta]

theorem flushDeltaFile_self (completedPartFiles : List Text) (state : DeltaFileManager × List (Text × DeltaFile))
    (name : Text) :
    ((flushDeltaFile completedPartFiles state name).1.view name,
        uploadedAs name (flushDeltaFile completedPartFiles state name).2) =
      GroupView.flushDelta (decide (name ∈ completedPartFiles)) (state.1.view name, uploadedAs name state.2) := by
  rw [flushDeltaFile, GroupView.flushDelta]
  cases hdelta : state.1.deltaFileWriters.get name with
  | none => simp [view, hdelta]
  | some d =>
    have hview : (state.1.view name).delta = some d := hdelta
    have hcanceled : (state.1.view name).canceled = decide (name ∈ state.1.canceledDeltaFiles) := rfl
    simp only [hview, hcanceled, decide_eq_true_eq]
    split_ifs with hname hcomplete
    · rfl
    · rcases saveDeltaFile d with ⟨data, error⟩
      cases error with
      | none => simp [uploadedAs]
      | some e => rfl
    · have hpart : DataFile.part name ≠ .delta name := by simp
      simp [view, Table.get_set_of_ne _ hpart, hdelta]

theorem flushDeltaFile_other (completedPartFiles : List Text) (state : DeltaFileManager × List (Text × DeltaFile))
    (name name' : Text) (hne : name' ≠ name) :
    ((flushDeltaFile completedPartFiles state name).1.view name',
        uploadedAs name' (flushDeltaFile completedPartFiles state name).2) =
      (state.1.view name', uploadedAs name' state.2) := by
  rw [flushDeltaFile]
  cases hdelta : state.1.deltaFileWriters.get name with
  | none => rfl
  | some d =>
    dsimp only
    split_ifs with hname hcomplete
    · rfl
    · rcases saveDeltaFile d with ⟨data, error⟩
      cases error with
      | none => simp [uploadedAs, Ne.symm hne]
      | some e => rfl
    · have hpart : DataFile.part name' ≠ .delta name := by simp
      have hdelta' : DataFile.delta name' ≠ .delta name := by simpa using hne
      simp [view, Table.get_set_of_ne _ hpart, Table.get_set_of_ne _ hdelta']

theorem flushPartFiles_view (m : DeltaFileManager) (order : MapOrder Text) (name : Text) :
    ((m.flushPartFiles order).1.view name, decide (name ∈ (m.flushPartFiles order).2)) =
      GroupView.flushPart (m.view name, false) := by
  have hnodup : (order.order m.partFiles.keys).Nodup := (order.perm _).nodup_iff.mpr m.partFiles.nodup
  have hfold := @view_foldl _ _ _ _ (fun state name => (state.1.view name, decide (name ∈ state.2))) flushPartFile
    (fun _ => GroupView.flushPart) flushPartFile_self flushPartFile_other _ hnodup (m, []) name
  refine hfold.trans ?_
  split_ifs with hmem
  · rfl
  · have hnone : m.partFiles.get name = none := by simpa [m.partFiles.mem_order_iff] using hmem
    simp [GroupView.flushPart, view, hnone]

theorem flushDeltaFiles_view (m : DeltaFileManager) (order : MapOrder Text) (completedPartFiles : List Text)
    (name : Text) :
    ((m.flushDeltaFiles order completedPartFiles).1.view name,
        uploadedAs name (m.flushDeltaFiles order completedPartFiles).2) =
      GroupView.flushDelta (decide (name ∈ completedPartFiles)) (m.view name, []) := by
  have hnodup : (order.order m.deltaFileWriters.keys).Nodup := (order.perm _).nodup_iff.mpr m.deltaFileWriters.nodup
  have hfold := @view_foldl _ _ _ _ (fun state name => (state.1.view name, uploadedAs name state.2))
    (flushDeltaFile completedPartFiles) (fun name => GroupView.flushDelta (decide (name ∈ completedPartFiles)))
    (flushDeltaFile_self _) (flushDeltaFile_other _) _ hnodup (m, []) name
  refine hfold.trans ?_
  split_ifs with hmem
  · rfl
  · have hnone : m.deltaFileWriters.get name = none := by simpa [m.deltaFileWriters.mem_order_iff] using hmem
    simp [GroupView.flushDelta, view, hnone, uploadedAs]

/-- A flush acts on each group by itself, whatever the orders of its passes. -/
theorem flushFiles_view (m : DeltaFileManager) (partOrder deltaOrder : MapOrder Text) (name : Text) :
    ((m.flushFiles partOrder deltaOrder).1.view name, uploadedAs name (m.flushFiles partOrder deltaOrder).2) =
      (m.view name).flush := by
  have hpart := flushPartFiles_view { m with dataFolder := .empty } partOrder name
  rw [flushFiles, flushDeltaFiles_view, GroupView.flush,
    show ({ m.view name with partData := none, deltaData := none } : GroupView) =
      view { m with dataFolder := .empty } name from rfl, ← hpart]

end DeltaFileManager

end WalG.Delta
