import WalG.Restore.DeltaChain

/-! # A delta chain restores its last state

A replayable push turns the nodes of the states below into the nodes of its own state.
-/
namespace WalG.Restore
open Foundation PageFile WalG.Backup List

variable {push : Push} {older : List Push} {selected : List Text} {name : Text}
  {interpreter : FileTarInterpreter} {content : Bytes}

/-- The files that a push hands down. -/
def wantedBelow (push : Push) (older : List Push) (selected : List Text) : List Text :=
  selected.filter (passesDown (push.files (fileList older)))

theorem mem_wantedBelow : name ∈ wantedBelow push older selected ↔
    name ∈ selected ∧ passesDown (push.files (fileList older)) name = true := mem_filter

theorem notMem_wantedBelow (h : passesDown (push.files (fileList older)) name = false) :
    name ∉ wantedBelow push older selected := by
  rw [mem_wantedBelow, h]
  simp

theorem interpretOld_regular {node : Option Node} (h : interpreter.selects name = false) :
    interpretOld interpreter (.regular name content) node = .ok node := by
  simp [interpretOld, h]

theorem interpretOld_whole (h : interpreter.selects name = true)
    (hi : (interpreter.isIncremental && interpreter.isIncremented name) = false) :
    interpretOld interpreter (.regular name content) none = .ok (some (.file content)) := by
  simp [interpretOld, h, localFile, unwrapRegularFileOld, hi, writeLocalFile, Reader.ofBytes]

theorem interpretOld_increment {data new : Bytes} (h : interpreter.selects name = true)
    (hi : (interpreter.isIncremental && interpreter.isIncremented name) = true)
    (hc : interpreter.createNewIncrementalFiles = false)
    (ha : applyFileIncrement (some content) (.ofBytes data) false = (some new, .ok ())) :
    interpretOld interpreter (.regular name data) (some (.file content)) =
      .ok (some (.file new)) := by
  simp [interpretOld, h, localFile, unwrapRegularFileOld, hi, hc, ha]

theorem selects_of_mem {backup : Backup} (h : name ∈ selected) :
    (backup.interpreter selected).selects name = true := decide_eq_true h

theorem selects_of_notMem {backup : Backup} (h : name ∉ selected) :
    (backup.interpreter selected).selects name = false := decide_eq_false h

/-- Label files and pg_control are written by the backup that is restored only. -/
theorem interpretOld_utility (hu : name ∈ utilityFilePaths) (hc : fileWithLabels? push name = some content) :
    interpretOld ((push.backup (fileList older)).interpreter selected) (.regular name content)
        (fetched older (wantedBelow push older selected) name) =
      .ok (fetched (push :: older) selected name) := by
  have hnot : name ∉ push.state.storedHeaders.map Prod.fst ++ push.state.stored.map Prod.fst :=
    fun h => push.state.notMem_utility h hu
  have hlook : (push.files (fileList older)).lookup name = none := Push.files_lookup_none hnot
  rw [fetched_of_notMem (notMem_wantedBelow (Push.passesDown_none hnot)), headerAt_utility hu]
  by_cases hs : name ∈ selected
  · rw [fetched, if_pos hs, hc]
    refine interpretOld_whole (selects_of_mem hs) ?_
    simp [Backup.interpreter, Push.backup, FileTarInterpreter.isIncremented, hlook]
  · rw [interpretOld_regular (selects_of_notMem hs), fetched_of_notMem hs, headerAt_utility hu]

theorem interpretOld_header (hr : Replayable push older) {header : Text × HeaderKind × ℤ}
    (h : header ∈ push.state.storedHeaders) :
    interpretOld ((push.backup (fileList older)).interpreter selected) (.header header.1 header.2.1)
        (fetched older (wantedBelow push older selected) header.1) =
      .ok (fetched (push :: older) selected header.1) := by
  rw [fetched_header h, fetched_of_notMem (notMem_wantedBelow (Push.passesDown_header h)), interpretOld]
  cases hk : headerAt older header.1 with
  | none => rfl
  | some kind =>
    obtain ⟨hdir, rfl⟩ := hr.headers header h kind hk
    rw [hdir]
    rfl

section Stored

variable {file : Text × DiskFile} (h : file ∈ push.state.stored)

include h

theorem isIncremented_stored (selected : List Text)
    {packed : PackedFile} (hp : (push.bundle (fileList older)).addToBundle file.1 file.2 = .packed packed) :
    ((push.backup (fileList older)).interpreter selected).isIncremented file.1 =
      packed.isIncremented := by
  have hd : describe file.2.mTime ((push.bundle (fileList older)).addToBundle file.1 file.2) =
      some ⟨packed.isIncremented, false, file.2.mTime⟩ := by rw [hp]; rfl
  simp only [FileTarInterpreter.isIncremented, Backup.interpreter, Push.backup, Push.files_lookup_stored h hd]

/-- A stored file gets its new content, whether packed whole or as an increment. -/
theorem interpretOld_stored (hf : Faithful push older) (hr : Replayable push older) {packed : PackedFile}
    (hp : (push.bundle (fileList older)).addToBundle file.1 file.2 = .packed packed) :
    interpretOld ((push.backup (fileList older)).interpreter selected)
        (.regular file.1 packed.data) (fetched older (wantedBelow push older selected) file.1) =
      .ok (fetched (push :: older) selected file.1) := by
  have hinc := isIncremented_stored h selected hp
  have hdown : passesDown (push.files (fileList older)) file.1 = (false || packed.isIncremented) :=
    Push.passesDown_stored h (by rw [hp]; rfl)
  by_cases hs : file.1 ∈ selected
  · rw [fetched_stored h hs]
    rcases (push.bundle (fileList older)).addToBundle_cases file.1 file.2 with
      ⟨hc, -⟩ | hc | ⟨data, hc, hi⟩ | ⟨e, hc⟩
    · rw [hp] at hc
      cases hc
    · rw [hp] at hc
      cases hc
      rw [fetched_of_notMem (notMem_wantedBelow hdown), hr.files file h]
      exact interpretOld_whole (selects_of_mem hs) (by rw [hinc, Bool.and_false])
    · rw [hp] at hc
      cases hc
      obtain ⟨old, hold, happly⟩ := hf.increment file h data hp
      rw [fetched_lastFile (mem_wantedBelow.mpr ⟨hs, hdown⟩)
        (push.state.notMem_utility (push.state.mem_storedNames h)) hold]
      refine interpretOld_increment (selects_of_mem hs) ?_ rfl happly
      rw [hinc, Bool.and_true]
      cases hl : fileList older with
      | none =>
        have hlsn := Bundle.isIncremented_lsn hi
        rw [hl] at hlsn
        cases hlsn
      | some _ => rfl
    · exact absurd hc (hf.built file h e)
  · have hw : file.1 ∉ wantedBelow push older selected := fun hw => hs (mem_wantedBelow.mp hw).1
    rw [interpretOld_regular (selects_of_notMem hs), fetched_of_notMem hs, fetched_of_notMem hw,
      headerAt_cons_of_notMem (push.state.notMem_headers h)]

theorem Faithful.skipped_of_not_packed (hf : Faithful push older)
    (hnot : ∀ packed, (push.bundle (fileList older)).addToBundle file.1 file.2 ≠ .packed packed) :
    (push.bundle (fileList older)).addToBundle file.1 file.2 = .skipped := by
  rcases (push.bundle (fileList older)).addToBundle_cases file.1 file.2 with
    ⟨hc, -⟩ | hc | ⟨data, hc, -⟩ | ⟨e, hc⟩
  · exact hc
  · exact absurd hc (hnot _)
  · exact absurd hc (hnot _)
  · exact absurd hc (hf.built file h e)

theorem lastFile?_of_skipped (hf : Faithful push older) (hr : Replayable push older)
    (hp : (push.bundle (fileList older)).addToBundle file.1 file.2 = .skipped) :
    lastFile? older file.1 = some file.2.content := by
  rcases (push.bundle (fileList older)).addToBundle_cases file.1 file.2 with
    ⟨-, hu | hb⟩ | hc | ⟨data, hc, -⟩ | ⟨e, hc⟩
  · exact hf.unchanged file h hu
  · exact hr.bitmaps file h hb
  all_goals
    cases hp.symm.trans hc

/-- A file whose content was not packed comes from the level below. -/
theorem fetched_skipped (hp : (push.bundle (fileList older)).addToBundle file.1 file.2 = .skipped)
    (hlast : lastFile? older file.1 = some file.2.content) :
    fetched (push :: older) selected file.1 =
      fetched older (wantedBelow push older selected) file.1 := by
  have hdown : passesDown (push.files (fileList older)) file.1 = true :=
    Push.passesDown_stored h (by rw [hp]; rfl)
  by_cases hs : file.1 ∈ selected
  · rw [fetched_stored h hs, fetched_lastFile (mem_wantedBelow.mpr ⟨hs, hdown⟩)
      (push.state.notMem_utility (push.state.mem_storedNames h)) hlast]
  · rw [fetched_of_notMem hs, fetched_of_notMem (fun hw => hs (mem_wantedBelow.mp hw).1),
      headerAt_cons_of_notMem (push.state.notMem_headers h)]

end Stored

theorem fetched_absent (hheader : name ∉ push.state.storedHeaders.map Prod.fst)
    (hstored : name ∉ push.state.stored.map Prod.fst) (hlabel : name ∉ push.labels.map Prod.fst)
    (hpg : name ≠ pgControlPath) :
    fetched (push :: older) selected name =
      fetched older (wantedBelow push older selected) name := by
  have hdown : passesDown (push.files (fileList older)) name = false :=
    Push.passesDown_none fun h => (mem_append.mp h).elim hheader hstored
  rw [fetched_of_notMem (notMem_wantedBelow hdown), fetched,
    fileWithLabels?_eq_none hlabel hpg hstored, ite_self, headerAt_cons_of_notMem hheader]
  rfl

theorem unwrapOld_fetched (hf : Faithful push older) (hr : Replayable push older) (links : List Text) :
    (push.backup (fileList older)).unwrapOld selected
        ⟨fetched older (wantedBelow push older selected), links⟩ =
      .ok ⟨fetched (push :: older) selected, links⟩ := by
  refine unwrapOld_eq_ok_iff.mpr ⟨fun entry hentry => ?_, fun k hk => ?_⟩
  · rcases Push.mem_allEntries.mp hentry with
      ⟨header, h, rfl⟩ | ⟨file, h, packed, hp, rfl⟩ | ⟨label, h, rfl⟩ | rfl
    · exact interpretOld_header hr h
    · exact interpretOld_stored h hf hr hp
    · refine interpretOld_utility (Push.labels_utility (mem_map_of_mem h)) ?_
      rw [fileWithLabels?, lookup_eq_some_of_mem push.labels_nodup h]
      rfl
    · refine interpretOld_utility mem_cons_self ?_
      rw [fileWithLabels?, lookup_eq_none_of_notMem (fun h => Push.labels_ne_pgControl h rfl),
        DirState.file?, if_pos rfl]
      rfl
  · rw [Push.mem_allEntries_names] at hk
    simp only [not_or] at hk
    obtain ⟨hheader, hpacked, hlabel, hpg⟩ := hk
    by_cases hstored : k ∈ push.state.stored.map Prod.fst
    · obtain ⟨file, h, rfl⟩ := mem_map.mp hstored
      have hp := hf.skipped_of_not_packed h fun packed hp => hpacked ⟨file, h, rfl, packed, hp⟩
      exact fetched_skipped h hp (lastFile?_of_skipped h hf hr hp)
    · exact fetched_absent hheader hstored hlabel hpg

end WalG.Restore
