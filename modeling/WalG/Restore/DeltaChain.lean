import WalG.Backup.Push

/-! # Restoring a chain of pushes

The plain recursion goes down to the full backup and replays the deltas upwards, handing down the
files that a delta skipped or stored as increments.
-/
namespace WalG.Restore
open Foundation PageFile WalG.Backup List

/-- The file list of the newest push of a chain, each push a delta over the next. -/
def fileList : List Push → Option BackupFileList
  | [] => none
  | push :: older => some (push.files (fileList older))

def backups : List Push → List Backup
  | [] => []
  | push :: older => push.backup (fileList older) :: backups older

/-- A regular file of the newest state. -/
def lastFile? : List Push → Text → Option Bytes
  | [], _ => none
  | push :: _, name => push.state.file? name

/-- The newest header of that name. -/
def headerAt (chain : List Push) (name : Text) : Option HeaderKind :=
  chain.findSome? fun push => (push.state.storedHeaders.lookup name).map (·.1)

/-- What holds of a push over its base: the backup was made, an equal
modification time means equal content, and an increment leads from the file in
the previous state to the new one. -/
structure Faithful (push : Push) (older : List Push) : Prop where
  built : ∀ file ∈ push.state.stored, ∀ e,
    (push.bundle (fileList older)).addToBundle file.1 file.2 ≠ .failed e
  unchanged : ∀ file ∈ push.state.stored,
    (push.bundle (fileList older)).isUnchanged file.1 file.2 = true →
      lastFile? older file.1 = some file.2.content
  increment : ∀ file ∈ push.state.stored, ∀ data,
    (push.bundle (fileList older)).addToBundle file.1 file.2 = .packed ⟨true, data⟩ →
      ∃ old, lastFile? older file.1 = some old ∧
        applyFileIncrement (some old) (.ofBytes data) false = (some file.2.content, .ok ())

/-- A file skipped for want of a bitmap kept its content, no file was a directory
or link before, and only directories are headers of two states. -/
structure Replayable (push : Push) (older : List Push) : Prop where
  bitmaps : ∀ file ∈ push.state.stored,
    (push.bundle (fileList older)).skipsWithoutBitmap file.1 file.2 →
      lastFile? older file.1 = some file.2.content
  files : ∀ file ∈ push.state.stored, headerAt older file.1 = none
  headers : ∀ header ∈ push.state.storedHeaders, ∀ kind, headerAt older header.1 = some kind →
    header.2.1 = .directory ∧ kind = .directory

/-- The condition on every push of a chain and the ones below it. -/
def EachPush (P : Push → List Push → Prop) : List Push → Prop
  | [] => True
  | push :: older => P push older ∧ EachPush P older

/-- The label files of the backup and the regular files of its state. -/
def fileWithLabels? (push : Push) (name : Text) : Option Bytes :=
  (push.labels.lookup name).or (push.state.file? name)

/-- The nodes after restoring the selected files of a chain. -/
def fetched : List Push → List Text → Text → Option Node
  | [], _, _ => none
  | push :: older, selected, name =>
    ((if name ∈ selected then fileWithLabels? push name else none).map .file).or
      ((headerAt (push :: older) name).map HeaderKind.node)

variable {push : Push} {older : List Push} {selected : List Text} {name : Text}

theorem lookup_stored {file : Text × DiskFile} (h : file ∈ push.state.stored) :
    push.state.file? file.1 = some file.2.content := by
  have hname : file.1 ≠ pgControlPath := fun heq =>
    push.state.notMem_utility (push.state.mem_storedNames h)
      (heq ▸ mem_cons_self)
  rw [DirState.file?, if_neg hname, lookup_eq_some_of_mem push.state.stored_nodup h]
  rfl

theorem labels_lookup_of_stored (h : name ∈ push.state.storedHeaders.map Prod.fst ++ push.state.stored.map Prod.fst) :
    push.labels.lookup name = none :=
  lookup_eq_none_of_notMem fun hl => push.state.notMem_utility h (Push.labels_utility hl)

theorem headerAt_cons : headerAt (push :: older) name =
    ((push.state.storedHeaders.lookup name).map (·.1)).or (headerAt older name) := by
  rw [headerAt, findSome?_cons]
  cases push.state.storedHeaders.lookup name <;> rfl

theorem headerAt_cons_of_notMem (h : name ∉ push.state.storedHeaders.map Prod.fst) :
    headerAt (push :: older) name = headerAt older name := by
  rw [headerAt_cons, lookup_eq_none_of_notMem h]
  rfl

theorem headerAt_utility (h : name ∈ utilityFilePaths) (chain : List Push) : headerAt chain name = none := by
  induction chain with
  | nil => rfl
  | cons push older ih =>
    rw [headerAt_cons_of_notMem, ih]
    exact fun hn => push.state.notMem_utility (mem_append_left _ hn) h

theorem fetched_of_notMem (h : name ∉ selected) (chain : List Push) :
    fetched chain selected name = (headerAt chain name).map HeaderKind.node := by
  cases chain with
  | nil => rfl
  | cons push older => rw [fetched, if_neg h]; rfl

theorem fetched_stored {file : Text × DiskFile} (h : file ∈ push.state.stored)
    (hs : file.1 ∈ selected) : fetched (push :: older) selected file.1 =
      some (.file file.2.content) := by
  rw [fetched, if_pos hs, fileWithLabels?, labels_lookup_of_stored (push.state.mem_storedNames h), Option.none_or,
    lookup_stored h]
  rfl

theorem fileWithLabels?_eq_none (hl : name ∉ push.labels.map Prod.fst) (hp : name ≠ pgControlPath)
    (hs : name ∉ push.state.stored.map Prod.fst) : fileWithLabels? push name = none := by
  rw [fileWithLabels?, lookup_eq_none_of_notMem hl, DirState.file?, if_neg hp, lookup_eq_none_of_notMem hs]
  rfl

theorem fetched_header {header : Text × HeaderKind × ℤ} (h : header ∈ push.state.storedHeaders) :
    fetched (push :: older) selected header.1 = some header.2.1.node := by
  have hname := mem_map_of_mem (f := Prod.fst) h
  have hu := push.state.notMem_utility (mem_append_left _ hname)
  have hnone : fileWithLabels? push header.1 = none :=
    fileWithLabels?_eq_none (fun hl => hu (Push.labels_utility hl))
      (fun hp => hu (hp ▸ mem_cons_self))
      (fun hs => (nodup_append.mp push.state.storedNames_nodup).2.2 _ hname _ hs rfl)
  rw [fetched, hnone, ite_self, headerAt_cons, lookup_eq_some_of_mem push.state.storedHeaders_nodup h]
  rfl

theorem mem_stored_of_file? (h : name ∉ utilityFilePaths) {content : Bytes}
    (hf : push.state.file? name = some content) :
    ∃ file ∈ push.state.stored, file.1 = name ∧ file.2.content = content := by
  have hne : name ≠ pgControlPath := fun heq => h (heq ▸ mem_cons_self)
  rw [DirState.file?, if_neg hne] at hf
  obtain ⟨file, hfile, rfl⟩ := Option.map_eq_some_iff.mp hf
  exact ⟨(name, file), mem_of_lookup_eq_some hfile, rfl, rfl⟩

theorem fetched_lastFile {content : Bytes} (hs : name ∈ selected) (hu : name ∉ utilityFilePaths)
    (h : lastFile? older name = some content) : fetched older selected name = some (.file content) := by
  cases older with
  | nil => cases h
  | cons push older =>
    obtain ⟨file, hfile, rfl, rfl⟩ := mem_stored_of_file? hu h
    exact fetched_stored hfile hs

theorem unwrapOld_backup (base : Option BackupFileList) (target : Target) :
    (push.backup base).unwrapOld selected target =
      (runKeyed TarEntry.name (interpretOld ((push.backup base).interpreter selected))
        (((push.compose (push.entries base)).map Prod.snd).flatten ++
          [.regular pgControlPath push.state.pgControl]) target.nodes).map
        fun nodes => { target with nodes := nodes } := by
  have htars : (push.backup base).getTarsToExtract selected false =
      (push.compose (push.entries base)).map Prod.snd := by
    simp [Backup.getTarsToExtract, Push.backup]
  have hne : (push.compose (push.entries base)).map Prod.snd ≠ [] := by
    simpa using push.compose_ne (push.entries base)
  have hpg : (push.backup base).isPgControlRequired = true := rfl
  rw [runKeyed_append]
  simp only [Backup.unwrapOld, hpg, htars, extractAll, if_neg hne]
  cases runKeyed TarEntry.name (interpretOld ((push.backup base).interpreter selected))
      ((push.compose (push.entries base)).map Prod.snd).flatten target.nodes with
  | error e => rfl
  | ok nodes =>
    simp only [Push.backup, bind, Except.bind, flatten_cons, flatten_nil, append_nil, reduceCtorEq, if_false]
    cases runKeyed TarEntry.name _ [TarEntry.regular pgControlPath push.state.pgControl] nodes <;> rfl

/-- Unwrapping a push succeeds exactly when every entry does, by itself. -/
theorem unwrapOld_eq_ok_iff {base : Option BackupFileList} {target : Target} {nodes : Text → Option Node} :
    (push.backup base).unwrapOld selected target = .ok { target with nodes := nodes } ↔
      (∀ entry ∈ push.allEntries base,
        interpretOld ((push.backup base).interpreter selected) entry (target.nodes entry.name) =
          .ok (nodes entry.name)) ∧
      ∀ k ∉ (push.allEntries base).map TarEntry.name, nodes k = target.nodes k := by
  have hperm : (((push.compose (push.entries base)).map Prod.snd).flatten ++
      [TarEntry.regular pgControlPath push.state.pgControl]).Perm (push.allEntries base) :=
    (push.compose_perm _).append_right _
  have hnd := (hperm.map TarEntry.name).nodup_iff.mpr Push.allEntries_nodup
  have hrun : runKeyed TarEntry.name (interpretOld ((push.backup base).interpreter selected))
      (((push.compose (push.entries base)).map Prod.snd).flatten ++
        [.regular pgControlPath push.state.pgControl]) target.nodes = .ok nodes ↔ _ :=
    runKeyed_eq_ok_iff hnd
  simp only [hperm.mem_iff, (hperm.map TarEntry.name).mem_iff] at hrun
  rw [unwrapOld_backup, ← hrun]
  cases runKeyed TarEntry.name (interpretOld ((push.backup base).interpreter selected))
      (((push.compose (push.entries base)).map Prod.snd).flatten ++
        [.regular pgControlPath push.state.pgControl]) target.nodes with
  | error e => simp [Except.map]
  | ok nodes' => simp [Except.map]

end WalG.Restore
