import WalG.Foundation.Stream
import WalG.Foundation.Table
import WalG.Foundation.Text

/-! # Metadata of the segments

With bulk upload the metadata of a segment is kept in a local file.
-/
namespace WalG.Wal
open Foundation List

structure WalMetadataDescription where
  createdTime : ℤ
  datetimeFormat : Text
  deriving DecidableEq, Repr

/-- The contents of a metadata file, by the names of segments. -/
abbrev WalMetadata := Table Text WalMetadataDescription

def metadataDatetimeFormat : Text := "%Y-%m-%dT%H:%M:%S.%fZ".toList

/-- The local folder of metadata files and the remote one. -/
structure MetadataFolders where
  walMetadataFolder : Table Text WalMetadata
  remote : Table Text WalMetadata

inductive MetadataError where
  | sliceOutOfRange
  deriving DecidableEq, Repr

def jsonSuffix : Text := ".json".toList

def walMetadataName (walFileName : Text) : Text := walFileName ++ jsonSuffix

def newWalMetadata (walFileName : Text) (createdTime : ℤ) : WalMetadata :=
  Table.set .empty walFileName ⟨createdTime, metadataDatetimeFormat⟩

/-- The names that match `walSearchString*.json`, for a search string without special characters. -/
def globMetadata (names : List Text) (walSearchString : Text) : List Text :=
  names.filter fun name => walSearchString.isPrefixOf name && jsonSuffix.isSuffixOf (name.drop walSearchString.length)

/-- Each file is read into the same map, whose entries are then all copied. -/
def consolidateFile (state : WalMetadata × WalMetadata) (file : WalMetadata) : WalMetadata × WalMetadata :=
  (state.1.union file, state.2.union (state.1.union file))

def consolidate (files : List WalMetadata) : WalMetadata := (files.foldl consolidateFile (.empty, .empty)).2

def uploadBulkMetadataFile (folders : MetadataFolders) (walFileName : Text) : Except MetadataError MetadataFolders :=
  match walFileName.getLast? with
  | none => .error .sliceOutOfRange
  | some last =>
    if last ≠ 'F' then .ok folders
    else
      let walSearchString := walFileName.dropLast
      let walMetadataFiles := globMetadata folders.walMetadataFolder.keys walSearchString
      let walMetadataArray := consolidate (walMetadataFiles.filterMap folders.walMetadataFolder.get)
      .ok ⟨folders.walMetadataFolder.removeAll walMetadataFiles,
        folders.remote.set (walMetadataName walSearchString) walMetadataArray⟩

def uploadWalMetadata (useBulkMetadataUpload : Bool) (folders : MetadataFolders) (walFileName : Text)
    (createdTime : ℤ) :
    Except MetadataError MetadataFolders :=
  let walMetadata := newWalMetadata walFileName createdTime
  if useBulkMetadataUpload then
    uploadBulkMetadataFile
      { folders with
        walMetadataFolder := folders.walMetadataFolder.set (walMetadataName walFileName) walMetadata } walFileName
  else .ok { folders with remote := folders.remote.set (walMetadataName walFileName) walMetadata }

section Consolidation

variable {files : List WalMetadata} {name : Text}

theorem foldl_consolidateFile_same (files : List WalMetadata) {state : WalMetadata × WalMetadata}
    (h : ∀ name, state.2.get name = state.1.get name) (name : Text) :
    (files.foldl consolidateFile state).2.get name = (files.foldl consolidateFile state).1.get name := by
  induction files generalizing state with
  | nil => exact h name
  | cons file files ih =>
    refine ih fun name => ?_
    rw [consolidateFile, Table.get_union, Table.get_union, h]
    cases file.get name <;> cases state.1.get name <;> rfl

theorem foldl_consolidateFile_get (files : List WalMetadata) (state : WalMetadata × WalMetadata)
    {description : WalMetadataDescription}
    (honly : ∀ file ∈ files, ∀ other, file.get name = some other → other = description) :
    (files.foldl consolidateFile state).1.get name =
      if ∃ file ∈ files, file.get name ≠ none then some description else state.1.get name := by
  induction files generalizing state with
  | nil => simp
  | cons file files ih =>
    obtain ⟨hfile, hfiles⟩ := forall_mem_cons.mp honly
    rw [foldl_cons, ih _ hfiles, consolidateFile, Table.get_union]
    simp only [exists_mem_cons_iff]
    cases hget : file.get name with
    | none => simp
    | some other =>
      rw [hfile other hget]
      simp

theorem get_consolidate {description : WalMetadataDescription}
    (honly : ∀ file ∈ files, ∀ other, file.get name = some other → other = description)
    (hsome : ∃ file ∈ files, file.get name ≠ none) : (consolidate files).get name = some description := by
  rw [consolidate, foldl_consolidateFile_same files fun _ => rfl, foldl_consolidateFile_get files _ honly, if_pos hsome]

end Consolidation

section Series

variable (series : Text) (createdTime : Char → ℤ)

/-- The last digits of the names of a series. -/
def seriesDigits : List Char := "0123456789ABCDEF".toList

def segmentMetadata (digit : Char) : WalMetadata := newWalMetadata (series ++ [digit]) (createdTime digit)

def segmentMetadataName (digit : Char) : Text := walMetadataName (series ++ [digit])

/-- The segments of a series with the given last digits, one after the other. -/
def uploadSeries (folders : MetadataFolders) (digits : List Char) : Except MetadataError MetadataFolders :=
  digits.foldlM (fun folders digit => uploadWalMetadata true folders (series ++ [digit]) (createdTime digit)) folders

/-- The remote folder has the entry of each segment, and no local file of the series is left. -/
structure BulkComplete (folders : MetadataFolders) : Prop where
  remote : ∀ digit ∈ seriesDigits, ∃ object metadata, folders.remote.get object = some metadata ∧
    metadata.get (series ++ [digit]) = some ⟨createdTime digit, metadataDatetimeFormat⟩
  walMetadataFolder : globMetadata folders.walMetadataFolder.keys series = []

variable {series createdTime} (folders : MetadataFolders) {digits : List Char} {digit : Char}

theorem uploadSeries_append (digits later : List Char) :
    uploadSeries series createdTime folders (digits ++ later) =
      (uploadSeries series createdTime folders digits >>= fun folders =>
        uploadSeries series createdTime folders later) :=
  foldlM_append

theorem uploadSeries_cons (digit : Char) (digits : List Char) :
    uploadSeries series createdTime folders (digit :: digits) =
      (uploadWalMetadata true folders (series ++ [digit]) (createdTime digit) >>= fun folders =>
        uploadSeries series createdTime folders digits) :=
  foldlM_cons

theorem mem_globMetadata {names : List Text} :
    segmentMetadataName series digit ∈ globMetadata names series ↔ segmentMetadataName series digit ∈ names := by
  rw [globMetadata, mem_filter, and_iff_left]
  rw [segmentMetadataName, walMetadataName, append_assoc, drop_left, Bool.and_eq_true,
    isPrefixOf_iff_prefix, isSuffixOf_iff_suffix]
  exact ⟨prefix_append _ _, suffix_append _ _⟩

theorem segmentMetadataName_injective : Function.Injective (segmentMetadataName series) := by
  intro digit digit' h
  have hnames : series ++ [digit] = series ++ [digit'] := append_cancel_right h
  exact singleton_injective (append_cancel_left hnames)

theorem uploadWalMetadata_of_ne {folders : MetadataFolders} (h : digit ≠ 'F') :
    uploadWalMetadata true folders (series ++ [digit]) (createdTime digit) =
      .ok { folders with
        walMetadataFolder := folders.walMetadataFolder.set (segmentMetadataName series digit)
          (segmentMetadata series createdTime digit) } := by
  rw [uploadWalMetadata, if_pos rfl, uploadBulkMetadataFile, getLast?_concat]
  exact if_pos h

/-- Segments before or after the one with `F` only leave their files. -/
theorem uploadSeries_quiet (h : 'F' ∉ digits) (folders : MetadataFolders) :
    uploadSeries series createdTime folders digits =
      .ok { folders with
        walMetadataFolder := folders.walMetadataFolder.setAll (segmentMetadataName series)
          (segmentMetadata series createdTime) digits } := by
  induction digits generalizing folders with
  | nil => rfl
  | cons digit digits ih =>
    obtain ⟨hdigit, hdigits⟩ := not_or.mp (mem_cons.not.mp h)
    rw [uploadSeries_cons, uploadWalMetadata_of_ne (Ne.symm hdigit)]
    exact ih hdigits _

/-- The local files when the segments with the given digits have left theirs. -/
abbrev localFiles (series : Text) (createdTime : Char → ℤ) (digits : List Char) : Table Text WalMetadata :=
  Table.setAll .empty (segmentMetadataName series) (segmentMetadata series createdTime) digits

theorem get_localFiles (h : digit ∈ digits) :
    (localFiles series createdTime digits).get (segmentMetadataName series digit) =
      some (segmentMetadata series createdTime digit) := by
  cases hget : (localFiles series createdTime digits).get (segmentMetadataName series digit) with
  | none => exact absurd rfl ((Table.get_setAll_eq_none hget).2 digit h)
  | some metadata =>
    rcases Table.get_setAll_eq_some hget with ⟨hempty, -⟩ | ⟨before, digit', after, -, hname, rfl, -⟩
    · cases hempty
    · rw [segmentMetadataName_injective hname]

theorem entry_of_localFiles {object : Text} {metadata : WalMetadata}
    {description : WalMetadataDescription} (hfile : (localFiles series createdTime digits).get object = some metadata)
    (hentry : metadata.get (series ++ [digit]) = some description) :
    description = ⟨createdTime digit, metadataDatetimeFormat⟩ := by
  rcases Table.get_setAll_eq_some hfile with ⟨hempty, -⟩ | ⟨before, digit', after, -, -, rfl, -⟩
  · cases hempty
  · by_cases hdigit : digit = digit'
    · subst hdigit
      rw [segmentMetadata, newWalMetadata, Table.get_set_self] at hentry
      exact (Option.some.inj hentry).symm
    · have hne : series ++ [digit] ≠ series ++ [digit'] := fun h =>
        hdigit (singleton_injective (append_cancel_left h))
      rw [segmentMetadata, newWalMetadata, Table.get_set_of_ne _ hne] at hentry
      cases hentry

/-- What is uploaded has the entry of every segment whose file is there. -/
theorem get_consolidate_localFiles (h : digit ∈ digits) :
    (consolidate ((globMetadata (localFiles series createdTime digits).keys series).filterMap
      (localFiles series createdTime digits).get)).get (series ++ [digit]) =
        some ⟨createdTime digit, metadataDatetimeFormat⟩ := by
  have hget := @get_localFiles series createdTime digits digit h
  refine get_consolidate (fun file hfile other hentry => ?_)
    ⟨segmentMetadata series createdTime digit, mem_filterMap.mpr ⟨segmentMetadataName series digit, ?_, hget⟩, ?_⟩
  · obtain ⟨object, -, hobject⟩ := mem_filterMap.mp hfile
    exact entry_of_localFiles hobject hentry
  · rw [mem_globMetadata, Table.mem_keys_iff, hget]
    rfl
  · rw [segmentMetadata, newWalMetadata, Table.get_set_self]
    exact Option.some_ne_none _

theorem globMetadata_removeAll (folder : Table Text WalMetadata) (series : Text) :
    globMetadata (folder.removeAll (globMetadata folder.keys series)).keys series = [] := by
  rw [globMetadata, filter_eq_nil_iff]
  intro name hname hmatch
  obtain ⟨hkey, hkept⟩ := folder.mem_keys_removeAll.mp hname
  exact hkept (mem_filter.mpr ⟨hkey, hmatch⟩)

/-- The files are put together by the segment with `F`, and later segments leave their files. -/
theorem uploadSeries_split {before after : List Char} (hbefore : 'F' ∉ before) (hafter : 'F' ∉ after)
    (remote : Table Text WalMetadata) :
    ∃ (folder : Table Text WalMetadata) (object : Text) (metadata : WalMetadata),
      uploadSeries series createdTime ⟨.empty, remote⟩ (before ++ 'F' :: after) =
        .ok ⟨folder.setAll (segmentMetadataName series) (segmentMetadata series createdTime) after,
          remote.set object metadata⟩ ∧
      globMetadata folder.keys series = [] ∧ ∀ digit ∈ before ++ ['F'],
        metadata.get (series ++ [digit]) = some ⟨createdTime digit, metadataDatetimeFormat⟩ := by
  have hF : uploadWalMetadata true ⟨localFiles series createdTime before, remote⟩ (series ++ ['F']) (createdTime 'F') =
      .ok ⟨(localFiles series createdTime (before ++ ['F'])).removeAll
          (globMetadata (localFiles series createdTime (before ++ ['F'])).keys series),
        remote.set (walMetadataName series) (consolidate
          ((globMetadata (localFiles series createdTime (before ++ ['F'])).keys series).filterMap
            (localFiles series createdTime (before ++ ['F'])).get))⟩ := by
    rw [uploadWalMetadata, if_pos rfl, uploadBulkMetadataFile, getLast?_concat, dropLast_concat]
    dsimp only
    rw [if_neg (by simp), localFiles, localFiles, Table.setAll, Table.setAll, foldl_append]
    rfl
  refine ⟨(localFiles series createdTime (before ++ ['F'])).removeAll
      (globMetadata (localFiles series createdTime (before ++ ['F'])).keys series), walMetadataName series, _, ?_,
    globMetadata_removeAll _ series, fun digit hdigit => get_consolidate_localFiles hdigit⟩
  rw [uploadSeries_append, uploadSeries_quiet hbefore, ok_bind, uploadSeries_cons, hF]
  exact uploadSeries_quiet hafter _

theorem not_bulkComplete {after : List Char} (h : digit ∈ after)
    (folder remote : Table Text WalMetadata) : ¬ BulkComplete series createdTime
      ⟨folder.setAll (segmentMetadataName series) (segmentMetadata series createdTime) after, remote⟩ := by
  intro hcomplete
  have hname : segmentMetadataName series digit ∈ globMetadata
      (folder.setAll (segmentMetadataName series) (segmentMetadata series createdTime) after).keys series := by
    rw [mem_globMetadata, Table.mem_keys_iff, ← Option.ne_none_iff_isSome]
    exact fun hnone => (Table.get_setAll_eq_none hnone).2 digit h rfl
  have hnil := hcomplete.walMetadataFolder
  rw [hnil] at hname
  cases hname

/-- In whatever order the segments of a series come, their metadata is complete in the end exactly if the segment with
`F` comes last. -/
theorem bulk_complete_iff (series : Text) (createdTime : Char → ℤ) (remote : Table Text WalMetadata)
    {digits : List Char} (hdigits : digits.Perm seriesDigits) :
    ∃ folders, uploadSeries series createdTime ⟨.empty, remote⟩ digits = .ok folders ∧
      (BulkComplete series createdTime folders ↔ digits.getLast? = some 'F') := by
  have hmem : 'F' ∈ digits := hdigits.mem_iff.mpr (by decide)
  have hnodup : digits.Nodup := hdigits.nodup_iff.mpr (by decide)
  obtain ⟨before, after, rfl⟩ := append_of_mem hmem
  have hsplit := nodup_append.mp hnodup
  have hbefore : 'F' ∉ before := fun h => hsplit.2.2 _ h _ mem_cons_self rfl
  have hafter : 'F' ∉ after := (nodup_cons.mp hsplit.2.1).1
  obtain ⟨folder, object, metadata, hrun, hempty, hentries⟩ :=
    @uploadSeries_split series createdTime before after hbefore hafter remote
  refine ⟨_, hrun, ?_⟩
  cases after with
  | nil =>
    refine iff_of_true ⟨fun digit hdigit => ⟨object, metadata, Table.get_set_self _, ?_⟩, hempty⟩ ?_
    · exact hentries digit (hdigits.mem_iff.mpr hdigit)
    · exact getLast?_concat
  | cons digit after =>
    refine iff_of_false (not_bulkComplete mem_cons_self _ _) (fun hlast => hafter ?_)
    rw [getLast?_append_cons, getLast?_cons_cons] at hlast
    exact mem_of_getLast? hlast

def exampleSeries : Text := "00000003000000080000001".toList

/-- The segments in the order of their names. -/
theorem bulk_complete_in_order : ∃ folders,
    uploadSeries exampleSeries (fun _ => 0) ⟨.empty, .empty⟩ seriesDigits = .ok folders ∧
      BulkComplete exampleSeries (fun _ => 0) folders := by
  obtain ⟨folders, hrun, hcomplete⟩ := bulk_complete_iff exampleSeries (fun _ => 0) .empty (Perm.refl seriesDigits)
  exact ⟨folders, hrun, hcomplete.mpr (by decide)⟩

/-- The segment with `F` overtakes the one before it. -/
theorem bulk_incomplete_overtaken : ∃ folders,
    uploadSeries exampleSeries (fun _ => 0) ⟨.empty, .empty⟩ "0123456789ABCDFE".toList = .ok folders ∧
      ¬ BulkComplete exampleSeries (fun _ => 0) folders := by
  obtain ⟨folder, object, metadata, hrun, -, -⟩ := @uploadSeries_split exampleSeries (fun _ => 0)
    "0123456789ABCD".toList ['E'] (by decide) (by decide) .empty
  exact ⟨_, hrun, not_bulkComplete mem_cons_self _ _⟩

end Series

end WalG.Wal
