import WalG.Restore.MissingBlocks

/-! # One file with and without the counter

Both runs of a file go through the same versions until the counter runs out.
-/
namespace WalG.Restore
open Foundation PageFile

variable {path name : Text} {b : StoredBackup} {chain older : List StoredBackup}

theorem passesDown_of_version {v : Version} (hv : b.version name = some v) :
    passesDown b.backup.files name = v.isIncrement := by
  have hinc := b.isIncrement_iff name v hv
  have hskipped : (b.backup.files.lookup name).any (·.isSkipped) = false := by
    by_contra hs
    rw [b.skipped name (Bool.not_eq_false _ ▸ hs)] at hv
    cases hv
  rw [passesDown]
  cases hd : b.backup.files.lookup name with
  | none =>
    rw [hd] at hinc
    exact hinc
  | some description =>
    rw [hd, Option.any_some] at hinc hskipped
    simp only [hinc, hskipped, Bool.false_or]

theorem unwrapFile_of_version {v : Version} (hv : b.version name = some v) (file : Option Bytes) :
    b.unwrapFile path name file = v.unwrap path file := by
  rw [StoredBackup.unwrapFile, hv]

theorem unwrapFile_of_none (hv : b.version name = none) (file : Option Bytes) :
    b.unwrapFile path name file = .ok (file, none) := by
  rw [StoredBackup.unwrapFile, hv]

theorem fileRun_cons_none (hv : b.version name = none) (skip : Bool) (missing : Option ℤ) (file : Option Bytes) :
    fileRun skip path name (b :: older) missing file =
      if b.backup.isIncremental && passesDown b.backup.files name then
        fileRun skip path name older missing file
      else .ok file := by
  rw [fileRun, unwrapFile_of_none hv]
  cases skip <;> rfl

theorem fileRun_last (hlast : (b.backup.isIncremental && passesDown b.backup.files name) = false)
    (skip skip' : Bool) (missing missing' : Option ℤ) (file : Option Bytes) :
    fileRun skip path name (b :: older) missing file =
      fileRun skip' path name (b :: older) missing' file := by
  rw [fileRun, fileRun]
  cases b.unwrapFile path name file with
  | error e => rfl
  | ok unwrapped => simp only [hlast, Bool.false_eq_true, if_false]

theorem versions_cons_none (hv : b.version name = none) :
    versions name (b :: older) =
      if b.backup.isIncremental && passesDown b.backup.files name then versions name older else [] := by
  rw [versions, hv]
  rfl

/-- Nothing older is looked at behind a whole file. -/
theorem not_passed_of_whole {content : Bytes} (hv : b.version name = some (.whole content)) :
    (b.backup.isIncremental && passesDown b.backup.files name) = false := by
  rw [passesDown_of_version hv, Version.isIncrement, Bool.and_false]

theorem versions_cons_whole {content : Bytes} (hv : b.version name = some (.whole content)) :
    versions name (b :: older) = [.whole content] := by
  rw [versions, hv, not_passed_of_whole hv]
  rfl

theorem versions_cons_increment {inc : Increment} (hv : b.version name = some (.increment inc)) :
    versions name (b :: older) =
      .increment inc :: if b.backup.isIncremental then versions name older else [] := by
  rw [versions, hv, passesDown_of_version hv, Version.isIncrement, Bool.and_true]
  rfl

theorem fileRun_full (chain : List StoredBackup) {missing : Option ℤ} {pages : List Page}
    {off : Option Bytes} (h : fileRun false path name chain missing (some (joinBlocks pages)) = .ok off) :
    off = some (joinBlocks (fillVersions (isPagedFile (pages.length * databasePageSize) path) pages
      (versions name chain))) := by
  induction chain generalizing pages with
  | nil => exact (Except.ok.inj h).symm
  | cons b older ih =>
    cases hv : b.version name with
    | none =>
      rw [fileRun_cons_none hv] at h
      rw [versions_cons_none hv]
      split_ifs at h ⊢
      · exact ih h
      · exact (Except.ok.inj h).symm
    | some v =>
      cases hu : v.unwrap path (some (joinBlocks pages)) with
      | error e =>
        rw [fileRun, unwrapFile_of_version hv, hu] at h
        cases h
      | ok unwrapped =>
        obtain ⟨file', r⟩ := unwrapped
        have hfile := unwrap_pages (fun inc hinc => b.fits name inc (hinc ▸ hv)) hu
        rw [fileRun, unwrapFile_of_version hv, hu, hfile] at h
        rw [versions, hv]
        simp only [Bool.false_eq_true, if_false] at h
        split_ifs at h ⊢ with hdown
        · have hrest := ih h
          rw [Version.fill_length] at hrest
          exact hrest
        · exact (Except.ok.inj h).symm

/-- A run that ends here agrees with the full one if that fills in nothing. -/
theorem completed_iff {newest : Increment} {newer : List Increment} {off : Option Bytes}
    (h : fileRun false path name chain none (some (joinBlocks (currentPages newest newer))) = .ok off) :
    (.ok (some (joinBlocks (currentPages newest newer))) : Except FileError (Option Bytes)) = .ok off ↔
      fillVersions (isPagedFile (newest.pageCount * databasePageSize) path) (currentPages newest newer)
        (versions name chain) = currentPages newest newer := by
  rw [fileRun_full chain h, currentPages_length, Except.ok.injEq, Option.some.injEq, eq_comm]
  exact (joinBlocks_injective (by decide)).eq_iff

/-- The counted run agrees with the full one from a file that still misses blocks. -/
theorem fileRun_counted_iff (newest : Increment) (chain : List StoredBackup) {newer : List Increment}
    {written : ℕ} (hw : written < newest.pageCount) {off : Option Bytes}
    (h : fileRun false path name chain none (some (joinBlocks (currentPages newest newer))) = .ok off) :
    fileRun true path name chain (some ((newest.pageCount : ℤ) - written))
        (some (joinBlocks (currentPages newest newer))) = .ok off ↔
      Accounted (isPagedFile (newest.pageCount * databasePageSize) path) newest newer written
        (versions name chain) := by
  induction chain generalizing newer written with
  | nil => exact iff_of_true h trivial
  | cons b older ih =>
    cases hv : b.version name with
    | none =>
      rw [fileRun_cons_none hv] at h ⊢
      rw [versions_cons_none hv]
      split_ifs at h ⊢
      · exact ih hw h
      · exact iff_of_true h trivial
    | some v =>
      cases v with
      | whole content =>
        rw [fileRun_last (not_passed_of_whole hv) _ false _ none, versions_cons_whole hv, Accounted,
          if_neg (Nat.not_le.mpr hw)]
        exact iff_of_true h trivial
      | increment inc =>
        have hdown := passesDown_of_version hv
        have hunwrap := unwrap_increment (b.fits name inc hv) path (currentPages newest newer)
        rw [← unwrapFile_of_version hv, fill_currentPages, fillCount_currentPages] at hunwrap
        rw [versions_cons_increment hv, Accounted, if_neg (Nat.not_le.mpr hw)]
        cases hi : b.backup.isIncremental with
        | false =>
          rw [fileRun_last (by rw [hi]; rfl) _ false _ none]
          exact iff_of_true h trivial
        | true =>
          rw [fileRun_on hunwrap hi hdown (by simp)] at h
          rw [if_pos rfl]
          by_cases hw' : written + writeCount newest newer inc < newest.pageCount
          · have hpos : 0 < (newest.pageCount : ℤ) - written - writeCount newest newer inc := by omega
            rw [fileRun_on hunwrap hi hdown fun _ => by simpa [account] using hpos]
            simp only [account, if_true, if_pos hpos]
            have hrest := ih hw' h
            rwa [Nat.cast_add, ← sub_sub] at hrest
          · have hneg : ¬ 0 < (newest.pageCount : ℤ) - written - writeCount newest newer inc := by omega
            rw [fileRun_stop hunwrap (.inr (.inr ⟨rfl, by simpa [account] using hneg⟩)),
              accounted_iff_of_le _ _ (Nat.not_lt.mp hw')]
            exact completed_iff h

/-- A file that starts out absent is counted right exactly on safe versions. -/
theorem fileRun_true_iff (chain : List StoredBackup) {off : Option Bytes}
    (h : fileRun false path name chain none none = .ok off) :
    fileRun true path name chain none none = .ok off ↔ SafeVersions path (versions name chain) := by
  induction chain with
  | nil => exact iff_of_true h trivial
  | cons b older ih =>
    cases hv : b.version name with
    | none =>
      rw [fileRun_cons_none hv] at h ⊢
      rw [versions_cons_none hv]
      split_ifs at h ⊢
      · exact ih h
      · exact iff_of_true h trivial
    | some v =>
      cases v with
      | whole content =>
        rw [fileRun_last (not_passed_of_whole hv) _ false _ none, versions_cons_whole hv]
        exact iff_of_true h trivial
      | increment inc =>
        have hdown := passesDown_of_version hv
        have hunwrap := unwrap_increment_new (b.fits name inc hv) path
        rw [← unwrapFile_of_version hv, apply_nil_eq_currentPages] at hunwrap
        rw [versions_cons_increment hv, SafeVersions]
        cases hi : b.backup.isIncremental with
        | false =>
          rw [fileRun_last (by rw [hi]; rfl) _ false _ none]
          exact iff_of_true h trivial
        | true =>
          rw [fileRun_on hunwrap hi hdown (by simp)] at h
          rw [if_pos rfl]
          have hle := inc.blocks_length_le
          by_cases hw : inc.blocks.length < inc.pageCount
          · have hne : (inc.pageCount : ℤ) - inc.blocks.length ≠ 0 := by omega
            rw [fileRun_on hunwrap hi hdown fun _ => decide_eq_true hne]
            simp only [account, if_true, if_pos hne]
            exact fileRun_counted_iff inc older hw h
          · have heq : (inc.pageCount : ℤ) - inc.blocks.length = 0 := by omega
            rw [fileRun_stop hunwrap (.inr (.inr ⟨rfl, by simpa [account] using heq⟩)),
              accounted_iff_of_le _ _ (Nat.not_lt.mp hw)]
            exact completed_iff h

end WalG.Restore
