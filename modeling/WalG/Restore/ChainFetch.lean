import WalG.Restore.Replay

/-! # Fetching a chain of pushes

The recursion makes the tablespace links again at every level, so a delta must not name any.
-/
namespace WalG.Restore
open Foundation PageFile WalG.Backup List

variable {push : Push} {older : List Push} {selected : List Text} {name : Text}

theorem setTablespacePaths_fresh (spec : TablespaceSpec) (target : Target)
    (hnd : (spec.reverse ++ target.tablespaceLinks).Nodup) :
    setTablespacePaths spec target =
      .ok { target with tablespaceLinks := spec.reverse ++ target.tablespaceLinks } := by
  induction spec generalizing target with
  | nil => rfl
  | cons link spec ih =>
    rw [reverse_cons, append_assoc] at hnd ⊢
    have hlink : link ∉ target.tablespaceLinks := by
      have := (nodup_append.mp hnd).2.1
      exact (nodup_cons.mp this).1
    rw [setTablespacePaths, if_neg hlink, ih _ hnd]
    rfl

theorem setTablespacePaths_empty {spec : TablespaceSpec} (hnd : spec.Nodup) (selected : List Text) :
    setTablespacePaths spec .empty = .ok ⟨fetched [] selected, spec.reverse⟩ := by
  rw [setTablespacePaths_fresh spec .empty (by simpa [Target.empty] using hnd)]
  simp only [Target.empty, append_nil]
  rfl

theorem setTablespacePaths_ok {spec : TablespaceSpec} {target target' : Target}
    (h : setTablespacePaths spec target = .ok target') :
    (∀ link ∈ spec, link ∉ target.tablespaceLinks) ∧
      spec ++ target.tablespaceLinks ⊆ target'.tablespaceLinks := by
  induction spec generalizing target with
  | nil =>
    cases h
    exact ⟨fun link hl => (not_mem_nil hl).elim, fun _ h => h⟩
  | cons link spec ih =>
    rw [setTablespacePaths] at h
    split at h
    · cases h
    · rename_i hlink
      obtain ⟨hnew, hsub⟩ := ih h
      refine ⟨?_, ?_⟩
      · intro l hl
        rcases mem_cons.mp hl with rfl | hl
        · exact hlink
        · exact fun hm => hnew l hl (mem_cons_of_mem _ hm)
      · intro l hl
        apply hsub
        simp only [cons_append, mem_cons, mem_append] at hl ⊢
        tauto

theorem unwrapOld_links {base : Option BackupFileList} {target target' : Target}
    (h : (push.backup base).unwrapOld selected target = .ok target') :
    target'.tablespaceLinks = target.tablespaceLinks := by
  rw [unwrapOld_backup] at h
  cases hr : runKeyed TarEntry.name (interpretOld ((push.backup base).interpreter selected))
      (((push.compose (push.entries base)).map Prod.snd).flatten ++
        [.regular pgControlPath push.state.pgControl]) target.nodes with
  | error e => rw [hr] at h; cases h
  | ok nodes =>
    rw [hr] at h
    cases h
    rfl

/-- The names that a chain's file list describes. -/
def Described (chain : List Push) (name : Text) : Prop :=
  match fileList chain with
  | none => True
  | some files => (files.lookup name).isSome = true ∨ name ∈ utilityFilePaths

theorem getBaseFilesToUnwrap_described (h : ∀ name ∈ selected, Described (push :: older) name) :
    getBaseFilesToUnwrap (push.files (fileList older)) selected =
      .ok (wantedBelow push older selected) := by
  rw [getBaseFilesToUnwrap, if_pos]
  · rfl
  · rw [all_eq_true]
    intro name hn
    rw [Bool.or_eq_true, decide_eq_true_iff]
    exact h name hn

theorem described_stored (hf : Faithful push older) {file : Text × DiskFile}
    (h : file ∈ push.state.stored) : Described (push :: older) file.1 := by
  refine .inl ?_
  rcases (push.bundle (fileList older)).addToBundle_cases file.1 file.2 with
    ⟨hc, -⟩ | hc | ⟨data, hc, -⟩ | ⟨e, hc⟩
  · rw [Push.files_lookup_stored h (by rw [hc]; rfl)]; rfl
  · rw [Push.files_lookup_stored h (by rw [hc]; rfl)]; rfl
  · rw [Push.files_lookup_stored h (by rw [hc]; rfl)]; rfl
  · exact absurd hc (hf.built file h e)

/-- Whatever is wanted from the level below is described there: only files of the
base are skipped or incremented. -/
theorem described_wantedBelow (hf : Faithful push older)
    (h : name ∈ wantedBelow push older selected) : Described older name := by
  have hdown := (mem_wantedBelow.mp h).2
  by_cases hstored : name ∈ push.state.stored.map Prod.fst
  · obtain ⟨file, hfile, rfl⟩ := mem_map.mp hstored
    have hbase : ((push.bundle (fileList older)).baseFile file.1).isSome = true := by
      rcases (push.bundle (fileList older)).addToBundle_cases file.1 file.2 with
        ⟨-, hu | hb⟩ | hc | ⟨data, -, hi⟩ | ⟨e, hc⟩
      · exact Bundle.baseFile_isSome rfl (.inl hu)
      · exact Bundle.baseFile_isSome rfl (.inr hb.2.1)
      · rw [Push.passesDown_stored hfile (by rw [hc]; rfl)] at hdown
        cases hdown
      · exact Bundle.baseFile_isSome rfl (.inr hi)
      · exact absurd hc (hf.built file hfile e)
    cases older with
    | nil => trivial
    | cons previous older => exact .inl hbase
  · by_cases hheader : name ∈ push.state.storedHeaders.map Prod.fst
    · obtain ⟨header, hh, rfl⟩ := mem_map.mp hheader
      rw [Push.passesDown_header hh] at hdown
      cases hdown
    · rw [Push.passesDown_none fun h => (mem_append.mp h).elim hheader hstored] at hdown
      cases hdown

theorem deltaFetch_full (push : Push) (spec : Option TablespaceSpec) (selected : List Text) (target : Target) :
    deltaFetchRecursionOld true (backups [push]) spec selected target =
      (setTablespacePaths (chooseTablespaceSpecification push.tablespaceSpec spec) target).bind
        ((push.backup none).unwrapOld selected) := rfl

theorem deltaFetch_delta (push previous : Push) (older : List Push) (spec : Option TablespaceSpec) (target : Target) :
    deltaFetchRecursionOld true (backups (push :: previous :: older)) spec selected target =
      (getBaseFilesToUnwrap (push.files (fileList (previous :: older))) selected).bind fun base =>
        (deltaFetchRecursionOld true (backups (previous :: older))
          (some (chooseTablespaceSpecification push.tablespaceSpec spec)) base target).bind
        fun target =>
          (setTablespacePaths (chooseTablespaceSpecification push.tablespaceSpec spec) target).bind
            ((push.backup (fileList (previous :: older))).unwrapOld selected) := rfl

/-- The recursion leaves the selected files of the newest state. -/
theorem deltaFetch_fetched (push : Push) (older : List Push) (hf : EachPush Faithful (push :: older))
    (hr : EachPush Replayable (push :: older)) (hs : ∀ name ∈ selected, Described (push :: older) name)
    (spec : TablespaceSpec) (hspec : older = [] ∧ spec.Nodup ∨ spec = []) :
    deltaFetchRecursionOld true (backups (push :: older)) (some spec) selected .empty =
      .ok ⟨fetched (push :: older) selected, spec.reverse⟩ := by
  induction older generalizing push selected with
  | nil =>
    have hnd : spec.Nodup := hspec.elim (fun h => h.2) (fun h => h ▸ nodup_nil)
    rw [deltaFetch_full, chooseTablespaceSpecification, setTablespacePaths_empty hnd (wantedBelow push [] selected)]
    exact unwrapOld_fetched hf.1 hr.1 _
  | cons previous older ih =>
    obtain rfl : spec = [] := hspec.resolve_left fun h => by simp at h
    have hwanted : ∀ name ∈ wantedBelow push (previous :: older) selected,
        Described (previous :: older) name := fun name h => described_wantedBelow hf.1 h
    have hbelow := ih previous hf.2 hr.2 hwanted (.inr rfl)
    rw [deltaFetch_delta, getBaseFilesToUnwrap_described hs, chooseTablespaceSpecification, Except.bind, hbelow]
    exact unwrapOld_fetched hf.1 hr.1 _

end WalG.Restore
