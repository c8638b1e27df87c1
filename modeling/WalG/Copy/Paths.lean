import WalG.Copy.Infos

/-! # Which copies keep their paths

A copy of a backup without its WAL keeps every path.
-/
namespace WalG.Copy
open Foundation Wal Delete List

/-- The object at this path of the source is copied. -/
def Copied (infos : List InfoProvider) (path : Text) : Prop := ∃ info ∈ infos, info.sourcePath = path

section Selections

variable {w : WalSize} {unmarshal : Bytes → Option UInt64} {sort : SliceSort (Text × ℕ)} {modified : Text → ℕ}
  {source : Storage} {backupName name : Text} {finishLsn : UInt64} {timeline : ℕ}

theorem copied_buildCopyingInfos {folder object : Text} {filter : Text → Bool}
    (hobject : (source.get (folder ++ object)).isSome = true) (hfilter : filter object = true) :
    Copied (buildCopyingInfos folder [] (listFolderRecursively source folder) filter noopRenameFunc)
      (folder ++ object) :=
  ⟨_, mem_buildCopyingInfos.mpr ⟨object, mem_listFolderRecursively.mpr hobject, hfilter, rfl⟩, rfl⟩

theorem targetPath_of_root {objects : List Text} {filter : Text → Bool} :
    ∀ info ∈ buildCopyingInfos [] [] objects filter noopRenameFunc, info.targetPath = info.sourcePath := by
  intro info hinfo
  obtain ⟨object, -, -, rfl⟩ := mem_buildCopyingInfos.mp hinfo
  rfl

theorem baseBackupPath_eq : baseBackupPath = "basebackups_005".toList ++ ['/'] := by decide +kernel

/-- The first segment that is copied with the backup. -/
def firstSegment (w : WalSize) (timeline : ℕ) (finishLsn : UInt64) : Text :=
  formatWALFileName w timeline (newWalSegmentNo w (lsnPred finishLsn.toNat))

theorem not_textLess_firstSegment (htimeline : timeline < 2 ^ 32) {s : WalSegment w} (hs : s.timeline = timeline)
    (hle : newWalSegmentNo w (lsnPred finishLsn.toNat) ≤ s.no) (rest : Text) :
    textLess (s.filename ++ rest) (firstSegment w timeline finishLsn) = false :=
  WalSegment.not_textLess_filename
    (s := ⟨timeline, newWalSegmentNo w (lsnPred finishLsn.toNat), htimeline,
      newWalSegmentNo_div_lt w (Nat.mod_lt _ (by decide))⟩) hs.symm hle rest

/-- The objects of the WAL that are copied, by their names in its folder. -/
def historyInfos (source : Storage) (first : Text) : List InfoProvider :=
  buildCopyingInfos walPath [] (listFolderRecursively source walPath) (fun object => !textLess object first)
    noopRenameFunc

section Parsed

variable (htimeline : parseTimelineFromBackupName name = .ok (some timeline))

include htimeline

theorem name_ne_dots : name ≠ ['.', '.'] := by
  rintro rfl
  cases htimeline

theorem ne_nil_of_getBackupByName (hbackup : getBackupByName sort modified source backupName = .ok name) :
    backupName ≠ [] := by
  rintro rfl
  rw [getBackupByName, if_neg (by decide)] at hbackup
  split_ifs at hbackup
  cases hbackup
  cases htimeline

theorem timeline_lt : timeline < 2 ^ 32 := by
  rw [parseTimelineFromBackupName] at htimeline
  split_ifs at htimeline
  · cases htimeline
  · exact parseHex_lt (Except.ok.inj htimeline)

theorem getCopyingInfos_eq (hbackup : getBackupByName sort modified source backupName = .ok name)
    (hmeta : fetchMeta unmarshal source name = some finishLsn) (withoutHistory : Bool) :
    getCopyingInfos w unmarshal sort modified source backupName withoutHistory =
      .ok (backupCopyingInfo source name ++
        if withoutHistory then [] else historyInfos source (firstSegment w timeline finishLsn)) := by
  have hlast : getLastWalFilename w unmarshal source name = .ok (some (firstSegment w timeline finishLsn)) := by
    simp only [getLastWalFilename, hmeta, htimeline, firstSegment]
  rw [getCopyingInfos, if_neg (ne_nil_of_getBackupByName htimeline hbackup), hbackup]
  cases withoutHistory with
  | true => simp [Except.bind, bind]
  | false =>
    simp only [Except.bind, bind, historyCopyingInfo, hlast, Bool.false_eq_true, if_false]
    rfl

end Parsed

theorem mem_historyInfos {first : Text} {info : InfoProvider} : info ∈ historyInfos source first ↔
    ∃ object, (source.get (walPath ++ object)).isSome = true ∧ textLess object first = false ∧
      info = ⟨walPath, [], object, object⟩ := by
  rw [historyInfos, mem_buildCopyingInfos]
  refine exists_congr fun object => ?_
  rw [mem_listFolderRecursively, Bool.not_eq_true']
  rfl

section Prefixed

variable (hslash : '/' ∉ name) (hdots : name ≠ ['.', '.'])

include hslash hdots

theorem joinPath_baseBackupPath :
    ∃ end', joinPath baseBackupPath name = "basebackups_005".toList ++ end' ∧ end' <+: '/' :: name := by
  rw [baseBackupPath_eq, joinPath_element (by decide) (by decide) (by decide) hslash hdots]
  split_ifs
  · exact ⟨[], (append_nil _).symm, nil_prefix⟩
  · exact ⟨'/' :: name, rfl, prefix_rfl⟩

theorem isPrefixOf_stored (rest : Text) :
    (joinPath baseBackupPath name).isPrefixOf (baseBackupPath ++ (name ++ rest)) = true := by
  obtain ⟨_, hjoin, hend⟩ := joinPath_baseBackupPath hslash hdots
  rw [List.isPrefixOf_iff_prefix, hjoin, baseBackupPath_eq, append_assoc, singleton_append, ← cons_append]
  exact (prefix_append_right_inj _).mpr (hend.trans (prefix_append _ _))

/-- An object of the backup comes from the folder of the backups, so none is put where a WAL object was. -/
theorem targetPath_ne_walPath {info : InfoProvider}
    (hinfo : info ∈ backupCopyingInfo source name) (object : Text) : info.targetPath ≠ walPath ++ object := by
  obtain ⟨found, -, hstart, rfl⟩ := mem_buildCopyingInfos.mp hinfo
  obtain ⟨_, hjoin, -⟩ := joinPath_baseBackupPath hslash hdots
  rw [List.isPrefixOf_iff_prefix, hjoin] at hstart
  obtain ⟨rest, rfl⟩ := hstart
  intro heq
  exact absurd (cons.inj heq).1 (by decide)

/-- If the paths are kept, no object of the WAL is copied: the copy of the one with the longest name would
have to be put there under a longer one. -/
theorem historyInfos_eq_nil_of_keepsPaths {first : Text}
    (hkeeps : KeepsPaths source (backupCopyingInfo source name ++ historyInfos source first)) :
    historyInfos source first = [] := by
  have hlisted : Listed source (backupCopyingInfo source name ++ historyInfos source first) :=
    (listed_buildCopyingInfos [] _ _).append (listed_buildCopyingInfos walPath _ _)
  by_contra hne
  obtain ⟨longest, hlongest, hmax⟩ := Finset.exists_max_image (historyInfos source first).toFinset
    (fun info => info.srcObj.length) (toFinset_nonempty_iff _ |>.mpr hne)
  rw [mem_toFinset] at hlongest
  obtain ⟨copied, hcopied, hpath⟩ := hkeeps.exists_targetPath hlisted (mem_append_right _ hlongest)
  obtain ⟨object, -, -, rfl⟩ := mem_historyInfos.mp hlongest
  rcases mem_append.mp hcopied with hbackup | hhistory
  · exact targetPath_ne_walPath hslash hdots hbackup object hpath
  · have hle := hmax copied (mem_toFinset.mpr hhistory)
    obtain ⟨object', -, -, rfl⟩ := mem_historyInfos.mp hhistory
    have hlen := congrArg length hpath
    simp only [InfoProvider.targetPath, InfoProvider.sourcePath, length_append, length_nil] at hlen hle
    have hwal : 0 < walPath.length := by decide
    omega

end Prefixed

theorem historyInfos_eq_nil_iff {first : Text} : historyInfos source first = [] ↔
    ∀ object, (source.get (walPath ++ object)).isSome = true → textLess object first = true := by
  rw [eq_nil_iff_forall_not_mem]
  constructor
  · intro hnone object hobject
    by_contra hless
    exact hnone _ (mem_historyInfos.mpr ⟨object, hobject, Bool.not_eq_true _ ▸ hless, rfl⟩)
  · intro hall info hinfo
    obtain ⟨object, hobject, hless, -⟩ := mem_historyInfos.mp hinfo
    rw [hall object hobject] at hless
    cases hless

end Selections

/-- A copy of a backup contains its folder, its sentinel and, with history, the WAL of its timeline from the segment
in which it was finished on. It keeps the paths just if no WAL object is copied. -/
theorem copy_keepsPaths_iff (w : WalSize) (unmarshal : Bytes → Option UInt64) (sort : SliceSort (Text × ℕ))
    (modified : Text → ℕ) (source : Storage) (backupName name : Text)
    (hbackup : getBackupByName sort modified source backupName = .ok name) (hslash : '/' ∉ name)
    (finishLsn : UInt64) (hmeta : fetchMeta unmarshal source name = some finishLsn)
    (timeline : ℕ) (htimeline : parseTimelineFromBackupName name = .ok (some timeline)) (withoutHistory : Bool) :
    ∃ infos, getCopyingInfos w unmarshal sort modified source backupName withoutHistory = .ok infos ∧
      (∀ rest, (rest = sentinelSuffix ∨ ∃ path, rest = '/' :: path) →
        (source.get (baseBackupPath ++ (name ++ rest))).isSome = true →
          Copied infos (baseBackupPath ++ (name ++ rest))) ∧
      (withoutHistory = false → ∀ s : WalSegment w, s.timeline = timeline →
        newWalSegmentNo w (lsnPred finishLsn.toNat) ≤ s.no → ∀ rest,
          (source.get (walPath ++ (s.filename ++ rest))).isSome = true →
            Copied infos (walPath ++ (s.filename ++ rest))) ∧
      (KeepsPaths source infos ↔ withoutHistory = true ∨ ∀ object, (source.get (walPath ++ object)).isSome = true →
        textLess object (formatWALFileName w timeline (newWalSegmentNo w (lsnPred finishLsn.toNat))) = true) := by
  have hdots := name_ne_dots htimeline
  refine ⟨_, getCopyingInfos_eq htimeline hbackup hmeta withoutHistory, ?_, ?_, ?_⟩
  · intro rest _ hstored
    obtain ⟨info, hinfo, hpath⟩ : Copied (backupCopyingInfo source name) (baseBackupPath ++ (name ++ rest)) :=
      @copied_buildCopyingInfos source [] _ _ hstored (isPrefixOf_stored hslash hdots rest)
    exact ⟨info, mem_append_left _ hinfo, hpath⟩
  · rintro rfl s hs hle rest hstored
    refine ⟨⟨walPath, [], s.filename ++ rest, s.filename ++ rest⟩, mem_append_right _ ?_, rfl⟩
    exact mem_historyInfos.mpr ⟨_, hstored, not_textLess_firstSegment (timeline_lt htimeline) hs hle rest, rfl⟩
  · have hfirst := @historyInfos_eq_nil_iff source (firstSegment w timeline finishLsn)
    cases withoutHistory with
    | true =>
      simp only [if_true, append_nil, true_or, iff_true]
      exact keepsPaths_of_same (listed_buildCopyingInfos [] _ _) targetPath_of_root
    | false =>
      rw [← firstSegment, ← hfirst]
      simp only [Bool.false_eq_true, if_false, false_or]
      constructor
      · exact historyInfos_eq_nil_of_keepsPaths hslash hdots
      · intro hnone
        rw [hnone, append_nil]
        exact keepsPaths_of_same (listed_buildCopyingInfos [] _ _) targetPath_of_root

def oneBackup : Text := "base_000000010000000000000002".toList

def oneSegment : Text := "000000010000000000000002.lz4".toList

theorem oneBackup_paths_nodup : [baseBackupPath ++ (oneBackup ++ sentinelSuffix),
    baseBackupPath ++ (oneBackup ++ "/metadata.json".toList), walPath ++ oneSegment].Nodup := by decide +kernel

/-- A backup that was finished in the segment stored next to it. -/
def oneBackupSource : Storage where
  entries := [(baseBackupPath ++ (oneBackup ++ sentinelSuffix), [1]),
    (baseBackupPath ++ (oneBackup ++ "/metadata.json".toList), [2]), (walPath ++ oneSegment, [3])]
  nodup := oneBackup_paths_nodup

def oneBackupCopied (withoutHistory : Bool) : Except CopyError (List InfoProvider) :=
  getCopyingInfos .default (fun _ => some 0x2000100) (mergeSlice _) (fun _ => 0) oneBackupSource oneBackup
    withoutHistory

/-- The segment is copied, but it is found in the root of the target only. -/
theorem segment_loses_folder : ∃ infos target, oneBackupCopied false = .ok infos ∧
    copyInfos oneBackupSource .empty infos = some target ∧ Copied infos (walPath ++ oneSegment) ∧
      target.get (walPath ++ oneSegment) = none ∧ target.get oneSegment = some [3] := by
  refine ⟨_, _, rfl, rfl, ⟨⟨walPath, [], oneSegment, oneSegment⟩, ?_, rfl⟩, ?_, ?_⟩
  · decide +kernel
  · decide +kernel
  · decide +kernel

theorem copy_keepsPaths_oneBackup : ∃ infos, oneBackupCopied true = .ok infos ∧ KeepsPaths oneBackupSource infos ∧
    Copied infos (baseBackupPath ++ (oneBackup ++ sentinelSuffix)) := by
  obtain ⟨infos, hinfos, hstored, -, hiff⟩ := copy_keepsPaths_iff .default (fun _ => some 0x2000100) (mergeSlice _)
    (fun _ => 0) oneBackupSource oneBackup oneBackup (by decide +kernel) (by decide +kernel) 0x2000100
    (by decide +kernel) 1 (by decide +kernel) true
  exact ⟨infos, hinfos, hiff.mpr (.inl rfl), hstored _ (.inl rfl) (by decide +kernel)⟩

end WalG.Copy
