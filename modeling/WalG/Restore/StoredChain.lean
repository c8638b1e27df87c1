import WalG.Restore.ReverseFetch

/-! # What a reverse fetch does to one file

A stored backup knows the version of every file in its tars.
-/
namespace WalG.Restore
open Foundation PageFile List

inductive Version where
  | whole (content : Bytes)
  | increment (inc : Increment)

def Version.bytes : Version → Bytes
  | .whole content => content
  | .increment inc => inc.encode

def Version.isIncrement : Version → Bool
  | .whole _ => false
  | .increment _ => true

/-- Everything the tars hold, pg_control aside. -/
def Backup.tarEntries (backup : Backup) : List TarEntry := (backup.tars.map Prod.snd).flatten

/-- A backup whose tars agree with its file list: distinct names, well-formed
increments where the list says so, no data for skipped files, every regular file
of a tar listed in its file set and pg_control in a tar of its own. -/
structure StoredBackup where
  backup : Backup
  version : Text → Option Version
  names_nodup : ((backup.tarEntries ++ backup.pgControl.toList).map TarEntry.name).Nodup
  regular_iff : ∀ name content, .regular name content ∈ backup.tarEntries ↔
    ∃ v, version name = some v ∧ v.bytes = content
  isIncrement_iff : ∀ name v, version name = some v →
    (backup.files.lookup name).any (·.isIncremented) = v.isIncrement
  skipped : ∀ name, (backup.files.lookup name).any (·.isSkipped) = true → version name = none
  header_final : ∀ name kind, .header name kind ∈ backup.tarEntries →
    passesDown backup.files name = false
  fits : ∀ name inc, version name = some (.increment inc) → inc.Fits
  listed : backup.tarFileSets = [] ∨ ∀ tar ∈ backup.tars, ∀ name content,
    .regular name content ∈ tar.2 → name ∈ (backup.tarFileSets.lookup tar.1).getD []
  pgControl_regular : ∀ entry, backup.pgControl = some entry →
    ∃ content, entry = .regular pgControlPath content
  pgControl_undescribed : backup.files.lookup pgControlPath = none
  pgControl_apart : ∀ entry ∈ backup.tarEntries, entry.name ≠ pgControlPath

/-- One version over the local file, or over none. -/
def Version.unwrap (path : Text) (v : Version) (file : Option Bytes) :
    Except FileError (Option Bytes × Option FileUnwrapResult) :=
  let unwrapped := match file with
    | none => unwrapNewFile ⟨v.isIncrement, false⟩ (.ofBytes v.bytes)
    | some content =>
      DefaultFileUnwrapper.unwrapExistingFile ⟨v.isIncrement, isPagedFile content.length path⟩
        (.ofBytes v.bytes) content
  match unwrapped with
  | (_, .error e) => .error e
  | (file, .ok result) => .ok (file, some result)

def StoredBackup.unwrapFile (b : StoredBackup) (path name : Text) (file : Option Bytes) :
    Except FileError (Option Bytes × Option FileUnwrapResult) :=
  match b.version name with
  | none => .ok (file, none)
  | some v => v.unwrap path file

/-- Whether a file stays wanted after its unwrap result, and its counter. -/
def account (missing : Option ℤ) : Option FileUnwrapResult → Bool × Option ℤ
  | some (.createdFromIncrement count) =>
    (decide (count ≠ 0), if count ≠ 0 then some count else missing)
  | some (.wroteIncrementBlocks restored) =>
    match missing with
    | none => (true, none)
    | some count =>
      (decide (0 < count - restored), if 0 < count - restored then some (count - restored) else missing)
  | some .completed => (false, missing)
  | some .skipped => (true, missing)
  | none => (true, missing)

/-- The way of one wanted file down the chain. -/
def fileRun (skip : Bool) (path name : Text) :
    List StoredBackup → Option ℤ → Option Bytes → Except FileError (Option Bytes)
  | [], _, file => .ok file
  | b :: older, missing, file =>
    match b.unwrapFile path name file with
    | .error e => .error e
    | .ok (file, result) =>
      if b.backup.isIncremental && passesDown b.backup.files name then
        if skip then
          if (account missing result).1 then fileRun skip path name older (account missing result).2 file
          else .ok file
        else fileRun skip path name older missing file
      else .ok file

variable {b : StoredBackup} {files : List Text} {skip : Bool} {name : Text}
  {kind : HeaderKind} {node node' : Option Node}

theorem extracted_sublist (backup : Backup) (files : List Text) (skip : Bool) :
    Sublist (backup.extracted files skip) (backup.tarEntries ++ backup.pgControl.toList) := by
  unfold Backup.extracted
  dsimp only
  split_ifs with hnil hpg
  · exact nil_sublist _
  · exact (Sublist.flatten (filter_sublist.map _)).append (.refl _)
  · exact (Sublist.flatten (filter_sublist.map _)).append (nil_sublist _)

theorem StoredBackup.extracted_nodup (b : StoredBackup) (files : List Text) (skip : Bool) :
    ((b.backup.extracted files skip).map TarEntry.name).Nodup :=
  b.names_nodup.sublist ((extracted_sublist b.backup files skip).map _)

theorem StoredBackup.mem_extracted {content : Bytes}
    (h : .regular name content ∈ b.backup.tarEntries) (hf : name ∈ files) :
    .regular name content ∈ b.backup.extracted files skip := by
  obtain ⟨entries, hentries, hmem⟩ := mem_flatten.mp h
  obtain ⟨tar, htar, rfl⟩ := mem_map.mp hentries
  have hshould : b.backup.shouldUnwrapTar files tar.1 = true := by
    rw [Backup.shouldUnwrapTar, Bool.or_eq_true, List.isEmpty_iff, List.any_eq_true]
    exact b.listed.imp id fun hl => ⟨name, hl tar htar name content hmem, decide_eq_true hf⟩
  have htars : tar.2 ∈ b.backup.getTarsToExtract files skip :=
    mem_map.mpr ⟨tar, mem_filter.mpr ⟨htar, by rw [hshould, Bool.or_true]⟩, rfl⟩
  rw [Backup.extracted, if_neg (ne_nil_of_mem htars)]
  exact mem_append_left _ (mem_flatten.mpr ⟨tar.2, htars, hmem⟩)

theorem StoredBackup.mem_extracted_cases {entry : TarEntry} (h : entry ∈ b.backup.extracted files skip) :
    entry ∈ b.backup.tarEntries ∨ ∃ content, entry = .regular pgControlPath content := by
  rcases mem_append.mp ((extracted_sublist b.backup files skip).subset h) with h | h
  · exact .inl h
  · exact .inr (b.pgControl_regular entry (Option.mem_toList.mp h))

theorem StoredBackup.version_header (h : .header name kind ∈ b.backup.tarEntries) : b.version name = none := by
  cases hv : b.version name with
  | none => rfl
  | some v =>
    have hreg := (b.regular_iff name v.bytes).mpr ⟨v, hv, rfl⟩
    have hnd := b.names_nodup.sublist ((sublist_append_left _ _).map _)
    cases inj_on_of_nodup_map hnd h hreg rfl

theorem interpretNew_version {v : Version} (hv : b.version name = some v) (hf : name ∈ files)
    (directory : Text) {file : Option Bytes} (hnode : localFile node = .ok file) :
    interpretNew (b.backup.interpreter files) directory (.regular name v.bytes) (node, none) =
      match v.unwrap (joinPath directory name) file with
      | .error e => .error (.file e)
      | .ok (file, result) => .ok (file.map .file, result) := by
  have hinc : (b.backup.interpreter files).isIncremented name = v.isIncrement := by
    rw [← b.isIncrement_iff name v hv]
    simp only [FileTarInterpreter.isIncremented, Backup.interpreter]
    cases b.backup.files.lookup name <;> rfl
  have hsel : (b.backup.interpreter files).selects name = true := decide_eq_true hf
  have hnew : (b.backup.interpreter files).createNewIncrementalFiles = false := rfl
  simp only [interpretNew, hsel, hnode, unwrapRegularFileNew, hinc, hnew, Version.unwrap,
    Bool.not_true, Bool.false_eq_true, if_false]
  cases file with
  | none => rcases unwrapNewFile ⟨v.isIncrement, false⟩ (.ofBytes v.bytes) with ⟨f, e | r⟩ <;> rfl
  | some content =>
    dsimp only
    generalize DefaultFileUnwrapper.unwrapExistingFile _ _ content = unwrapped
    rcases unwrapped with ⟨f, e | r⟩ <;> rfl

theorem interpretNew_unselected (backup : Backup) {content : Bytes} (hf : name ∉ files)
    (directory : Text) (state : Option Node × Option FileUnwrapResult) :
    interpretNew (backup.interpreter files) directory (.regular name content) state = .ok state := by
  have hsel : (backup.interpreter files).selects name = false := decide_eq_false hf
  simp [interpretNew, hsel]

theorem localFile_ok {file : Option Bytes} (h : localFile node = .ok file) : file = Node.content? node := by
  rcases node with _ | _ | _ | content
  · exact (Except.ok.inj h).symm
  · cases h
  · cases h
  · exact (Except.ok.inj h).symm

theorem interpretHeader_ok (h : interpretHeader kind node = .ok node') :
    node' = some kind.node ∧ (node = none ∨ node = some .directory ∧ kind = .directory) := by
  rcases node with _ | _ | _ | content <;> cases kind <;> first
    | (cases h; exact ⟨rfl, .inl rfl⟩)
    | (cases h; exact ⟨rfl, .inr ⟨rfl, rfl⟩⟩)
    | cases h

theorem interpretNew_header_ok {interpreter : FileTarInterpreter} {directory : Text}
    {result result' : Option FileUnwrapResult}
    (h : interpretNew interpreter directory (.header name kind) (node, result) =
      .ok (node', result')) : interpretHeader kind node = .ok node' ∧ result' = result := by
  rw [interpretNew] at h
  cases hk : interpretHeader kind node with
  | error e => rw [hk] at h; cases h
  | ok n =>
    rw [hk] at h
    cases h
    exact ⟨rfl, rfl⟩

theorem content?_header (kind : HeaderKind) : Node.content? (some kind.node) = none := by
  cases kind <;> rfl

theorem content?_interpretHeader (h : interpretHeader kind node = .ok node') :
    Node.content? node = none ∧ Node.content? node' = none := by
  obtain ⟨rfl, rfl | ⟨rfl, -⟩⟩ := interpretHeader_ok h <;> exact ⟨rfl, content?_header kind⟩

theorem StoredBackup.mem_extracted_of_name {entry : TarEntry} (h : entry ∈ b.backup.tarEntries)
    (hn : entry.name ∈ (b.backup.extracted files skip).map TarEntry.name) : entry ∈ b.backup.extracted files skip := by
  obtain ⟨entry', h', hname⟩ := mem_map.mp hn
  have hall := (extracted_sublist b.backup files skip).subset h'
  rwa [← inj_on_of_nodup_map b.names_nodup hall (mem_append_left _ h) hname]

section Level

variable {directory : Text} {target target' : Target} {result : UnwrapResult}
  (h : b.backup.unwrapNew directory files skip target = .ok (target', result))

include h

theorem unwrapNew_version {v : Version} (hv : b.version name = some v) (hf : name ∈ files) :
    ∃ file file', localFile (target.nodes name) = .ok file ∧
      v.unwrap (joinPath directory name) file = .ok (file', result name) ∧
      target'.nodes name = file'.map .file := by
  obtain ⟨-, -, hentries, -⟩ := (unwrapNew_eq_ok_iff (b.extracted_nodup files skip)).mp h
  have hmem := (b.regular_iff name v.bytes).mpr ⟨v, hv, rfl⟩
  have hstep := hentries _ (StoredBackup.mem_extracted hmem hf)
  rw [TarEntry.name] at hstep
  cases hlocal : localFile (target.nodes name) with
  | error e =>
    have hsel : (b.backup.interpreter files).selects name = true := decide_eq_true hf
    simp [interpretNew, hsel, hlocal] at hstep
  | ok file =>
    rw [interpretNew_version hv hf directory hlocal] at hstep
    cases hu : v.unwrap (joinPath directory name) file with
    | error e => simp [hu] at hstep
    | ok unwrapped =>
      obtain ⟨file', r⟩ := unwrapped
      simp only [hu, Except.ok.injEq, Prod.mk.injEq] at hstep
      exact ⟨file, file', rfl, by rw [hu, hstep.2], hstep.1.symm⟩

theorem unwrapNew_unextracted (hn : name ∉ (b.backup.extracted files skip).map TarEntry.name) :
    target'.nodes name = target.nodes name ∧ result name = none :=
  ((unwrapNew_eq_ok_iff (b.extracted_nodup files skip)).mp h).2.2.2 name hn

theorem unwrapNew_header (hk : .header name kind ∈ b.backup.extracted files skip) :
    interpretHeader kind (target.nodes name) = .ok (target'.nodes name) ∧ result name = none :=
  interpretNew_header_ok
    (((unwrapNew_eq_ok_iff (b.extracted_nodup files skip)).mp h).2.2.1 _ hk)

theorem unwrapNew_unselected (hh : ∀ kind, .header name kind ∉ b.backup.extracted files skip)
    (hf : name ∉ files) : target'.nodes name = target.nodes name := by
  by_cases hmem : name ∈ (b.backup.extracted files skip).map TarEntry.name
  · obtain ⟨entry, hentry, rfl⟩ := mem_map.mp hmem
    have hstep := ((unwrapNew_eq_ok_iff (b.extracted_nodup files skip)).mp h).2.2.1 entry hentry
    cases entry with
    | header n kind => exact absurd hentry (hh kind)
    | regular n content =>
      rw [TarEntry.name] at hf hstep ⊢
      rw [interpretNew_unselected b.backup hf] at hstep
      exact (Prod.mk.inj (Except.ok.inj hstep)).1.symm
  · exact (unwrapNew_unextracted h hmem).1

/-- A name that is neither a version nor a header is not touched. -/
theorem unwrapNew_absent (hv : b.version name = none)
    (hh : ∀ kind, .header name kind ∉ b.backup.extracted files skip) (hpg : name ≠ pgControlPath) :
    target'.nodes name = target.nodes name ∧ result name = none := by
  apply unwrapNew_unextracted h
  intro hmem
  obtain ⟨entry, hentry, rfl⟩ := mem_map.mp hmem
  cases entry with
  | header n kind => exact hh kind hentry
  | regular n content =>
    rcases b.mem_extracted_cases hentry with htar | ⟨c, hc⟩
    · obtain ⟨v, hv', -⟩ := (b.regular_iff n content).mp htar
      rw [TarEntry.name, hv'] at hv
      cases hv
    · exact hpg (congrArg TarEntry.name hc)

/-- One level of the reverse fetch on a wanted file. -/
theorem unwrapNew_wanted (hf : name ∈ files) (hpg : name ≠ pgControlPath) :
    b.unwrapFile (joinPath directory name) name (target.file? name) =
      .ok (target'.file? name, result name) := by
  unfold StoredBackup.unwrapFile
  cases hv : b.version name with
  | some v =>
    obtain ⟨file, file', hlocal, hu, hnode⟩ := unwrapNew_version h hv hf
    rw [Target.file?, Target.file?, ← localFile_ok hlocal, hnode]
    cases file' <;> exact hu
  | none =>
    by_cases hh : ∃ kind, .header name kind ∈ b.backup.extracted files skip
    · obtain ⟨kind, hk⟩ := hh
      obtain ⟨hstep, hres⟩ := unwrapNew_header h hk
      obtain ⟨hbefore, hafter⟩ := content?_interpretHeader hstep
      rw [Target.file?, Target.file?, hbefore, hafter, hres]
    · obtain ⟨hnode, hres⟩ := unwrapNew_absent h hv (not_exists.mp hh) hpg
      rw [Target.file?, Target.file?, hnode, hres]

theorem unwrapNew_unwanted (hf : name ∉ files) : target'.file? name = target.file? name := by
  by_cases hh : ∃ kind, .header name kind ∈ b.backup.extracted files skip
  · obtain ⟨kind, hk⟩ := hh
    obtain ⟨hbefore, hafter⟩ := content?_interpretHeader (unwrapNew_header h hk).1
    rw [Target.file?, Target.file?, hbefore, hafter]
  · rw [Target.file?, Target.file?, unwrapNew_unselected h (not_exists.mp hh) hf]

end Level

end WalG.Restore
