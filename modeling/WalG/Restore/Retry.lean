import WalG.Restore.Interpreter
import WalG.PageFile.Interrupt
import WalG.PageFile.BlockHistory

/-! # Unwrapping an entry again after a read error

The extraction loop hands a failed tar to the interpreter again.
-/
namespace WalG.Restore
open Foundation PageFile List

/-- The content of a tar entry. -/
inductive Entry where
  | full (content : Bytes)
  | increment (inc : Increment)

namespace Entry

def bytes : Entry → Bytes
  | full content => content
  | increment inc => inc.encode

def isIncrement : Entry → Bool
  | full _ => false
  | increment _ => true

end Entry

variable {interpreter : FileTarInterpreter} {name targetPath : Text} {m : ℕ} {e : ReadError}

theorem unwrapRegularFileNew_none (hsel : interpreter.selects name = true) (reader : Reader) :
    unwrapRegularFileNew interpreter reader name targetPath none =
      ((unwrapNewFile ⟨interpreter.isIncremented name, false⟩ reader).1,
        (unwrapNewFile ⟨interpreter.isIncremented name, false⟩ reader).2.map some) := by
  simp [unwrapRegularFileNew, hsel]

theorem selects_of_error {reader : Reader} {file : Option Bytes} {err : FileError}
    (h : (unwrapRegularFileNew interpreter reader name targetPath file).2 = .error err) :
    interpreter.selects name = true := by
  by_contra hsel
  rw [Bool.not_eq_true] at hsel
  simp only [unwrapRegularFileNew, hsel, Bool.not_false, if_true] at h
  cases h

theorem unwrapNewFile_full_cut (pageFile : Bool) (content : Bytes) (he : e ≠ .eof) :
    unwrapNewFile ⟨false, pageFile⟩ (.cut content m e) = (none, .error (.read e)) := by
  simp [unwrapNewFile, completeLocalFile, writeLocalFile, Reader.cut, he]

theorem unwrapNewFile_full (pageFile : Bool) (content : Bytes) :
    unwrapNewFile ⟨false, pageFile⟩ (.ofBytes content) = (some content, .ok .completed) := by
  simp [unwrapNewFile, completeLocalFile, writeLocalFile, Reader.ofBytes]

theorem unwrapNewFile_increment_stopped {inc : Increment} {pageFile : Bool} {err : FileError}
    (h : (unwrapNewFile ⟨true, pageFile⟩ (.cut inc.encode m e)).2 = .error err) :
    ∃ file j, (unwrapNewFile ⟨true, pageFile⟩ (.cut inc.encode m e)).1 = some file ∧
      (j = 0 ∨ j < inc.pageCount) ∧ file.length = j * databasePageSize := by
  have hpages := (createFileFromIncrement_pages_length inc (.cut inc.encode m e) ( take_prefix m inc.encode)).2
  unfold unwrapNewFile at h ⊢
  rw [if_pos rfl] at h ⊢
  rcases hc : createFileFromIncrement (.cut inc.encode m e) [] with ⟨file, err' | missing⟩
  · obtain ⟨j, hj, hlen⟩ := hpages _ _ hc
    exact ⟨file, j, rfl, hj, hlen⟩
  · rw [hc] at h
    cases h

theorem unwrapNewFile_increment_length {inc : Increment} {pageFile : Bool} {file : Bytes} {result : FileUnwrapResult}
    (h : unwrapNewFile ⟨true, pageFile⟩ (.ofBytes inc.encode) = (some file, .ok result)) :
    file.length = inc.pageCount * databasePageSize := by
  have hpages := (createFileFromIncrement_pages_length inc (.ofBytes inc.encode) (prefix_refl _)).1
  unfold unwrapNewFile at h
  rw [if_pos rfl] at h
  rcases hc : createFileFromIncrement (.ofBytes inc.encode) [] with ⟨file', err' | missing⟩
  · rw [hc] at h
    cases h
  · rw [hc] at h
    cases h
    exact hpages _ _ hc

theorem writeIncrement_length (reader : Reader) (file : Bytes) (ow : Bool) :
    ∃ file', (writeIncrement reader file ow).1 = some file' ∧ file'.length = file.length := by
  have hlen := writePagesFromIncrement_length reader file ow
  unfold writeIncrement
  rcases hw : writePagesFromIncrement reader file ow with ⟨file', err | restored⟩ <;>
    exact ⟨file', rfl, by rw [hw] at hlen; exact hlen⟩

theorem unwrapRegularFileNew_increment (hsel : interpreter.selects name = true)
    (hinc : interpreter.isIncremented name = true) (reader : Reader) (file : Bytes) :
    unwrapRegularFileNew interpreter reader name targetPath (some file) =
      ((writeIncrement reader file interpreter.createNewIncrementalFiles).1,
        (writeIncrement reader file interpreter.createNewIncrementalFiles).2.map some) := by
  cases hc : interpreter.createNewIncrementalFiles <;>
    simp [unwrapRegularFileNew, hsel, hinc, hc, CatchupFileUnwrapper.unwrapExistingFile,
      DefaultFileUnwrapper.unwrapExistingFile]

/-- The second attempt on the complete entry, after a first attempt that broke
off with `e` after `m` bytes, and one uninterrupted attempt both succeed and
leave the same file. -/
def RetrySafe (interpreter : FileTarInterpreter) (name targetPath : Text) (entry : Entry) (m : ℕ)
    (e : ReadError) : Prop :=
  ∃ content retried once,
    unwrapRegularFileNew interpreter (.ofBytes entry.bytes) name targetPath
        (unwrapRegularFileNew interpreter (.cut entry.bytes m e) name targetPath none).1 =
      (some content, .ok retried) ∧
    unwrapRegularFileNew interpreter (.ofBytes entry.bytes) name targetPath none =
      (some content, .ok once)

theorem retrySafe_full (hsel : interpreter.selects name = true)
    (hkind : interpreter.isIncremented name = false) (content : Bytes) (he : e ≠ .eof) :
    RetrySafe interpreter name targetPath (.full content) m e := by
  have hfirst : (unwrapRegularFileNew interpreter (.cut content m e) name targetPath none).1 =
      none := by
    rw [unwrapRegularFileNew_none hsel, hkind, unwrapNewFile_full_cut false content he]
  refine ⟨content, some .completed, some .completed, ?_, ?_⟩
  · rw [Entry.bytes, hfirst, unwrapRegularFileNew_none hsel, hkind, unwrapNewFile_full]
    rfl
  · rw [Entry.bytes, unwrapRegularFileNew_none hsel, hkind, unwrapNewFile_full]
    rfl

theorem retrySafe_increment_iff (inc : Increment) (hsel : interpreter.selects name = true)
    (hkind : interpreter.isIncremented name = true) {err : FileError}
    (hstop : (unwrapNewFile ⟨true, false⟩ (.cut inc.encode m e)).2 = .error err) :
    RetrySafe interpreter name targetPath (.increment inc) m e ↔ inc.pageCount = 0 := by
  obtain ⟨file, j, hfile, hj, hlen⟩ := unwrapNewFile_increment_stopped hstop
  have hfirst : (unwrapRegularFileNew interpreter (.cut inc.encode m e) name targetPath none).1 =
      some file := by
    rw [unwrapRegularFileNew_none hsel, hkind]
    exact hfile
  unfold RetrySafe
  rw [Entry.bytes, hfirst, unwrapRegularFileNew_increment hsel hkind, unwrapRegularFileNew_none hsel, hkind]
  constructor
  · rintro ⟨content, retried, once, hretry, honce⟩
    obtain ⟨file', hfile', hlen'⟩ := writeIncrement_length (.ofBytes inc.encode) file
      interpreter.createNewIncrementalFiles
    obtain rfl : file' = content := Option.some.inj (hfile'.symm.trans (Prod.mk.inj hretry).1)
    rcases hnew : unwrapNewFile ⟨true, false⟩ (.ofBytes inc.encode) with ⟨file₁, err | result⟩
    · rw [hnew] at honce
      cases honce
    · rw [hnew] at honce
      obtain rfl : file₁ = some file' := (Prod.mk.inj honce).1
      have hfull := unwrapNewFile_increment_length hnew
      rw [hlen', hlen] at hfull
      have := Nat.eq_of_mul_eq_mul_right (by decide) hfull
      omega
  · intro hzero
    have hblocks : inc.blocks = [] := by
      apply eq_nil_iff_forall_not_mem.mpr
      intro b hb
      have := inc.below b hb
      omega
    have hf : inc.Fits := by simp [Increment.Fits, hblocks]
    have hnil : file = joinBlocks ([] : List Page) := by
      apply eq_nil_of_length_eq_zero
      rcases hj with rfl | hj
      · simpa using hlen
      · omega
    have hcreate := createFileFromIncrement_encode inc hf .eof
    have happly : inc.apply [] = [] := eq_nil_of_length_eq_zero (by simpa using hzero)
    have hfill := writePagesFromIncrement_encode inc hf [] .eof
      interpreter.createNewIncrementalFiles
    have hfilled : inc.fill interpreter.createNewIncrementalFiles [] = [] :=
      eq_nil_of_length_eq_zero (by simp)
    rw [happly] at hcreate
    rw [hfilled] at hfill
    refine ⟨[], some (.wroteIncrementBlocks (inc.fillCount interpreter.createNewIncrementalFiles [])),
      some (.createdFromIncrement (inc.pageCount - inc.blocks.length)), ?_, ?_⟩
    · rw [hnil, writeIncrement, Reader.ofBytes, hfill]
      rfl
    · rw [unwrapNewFile, if_pos rfl, Reader.ofBytes, hcreate]
      rfl

/-- A retry after a read error is safe exactly for full files and for increments
of empty files. -/
theorem unwrapRegularFileNew_retry_iff (interpreter : FileTarInterpreter) (name targetPath : Text)
    (entry : Entry) (m : ℕ) (e err : ReadError)
    (hkind : interpreter.isIncremented name = entry.isIncrement) (he : e ≠ .eof)
    (hstop : (unwrapRegularFileNew interpreter (.cut entry.bytes m e) name targetPath none).2 = .error (.read err)) :
    RetrySafe interpreter name targetPath entry m e ↔
      ∀ inc, entry = .increment inc → inc.pageCount = 0 := by
  have hsel := selects_of_error hstop
  cases entry with
  | full content =>
    simp only [reduceCtorEq, false_implies, implies_true, iff_true]
    exact retrySafe_full hsel hkind content he
  | increment inc =>
    have hkind' : interpreter.isIncremented name = true := hkind
    have hstop' : (unwrapNewFile ⟨true, false⟩ (.cut inc.encode m e)).2 = .error (.read err) := by
      rw [unwrapRegularFileNew_none hsel, hkind'] at hstop
      cases hr : (unwrapNewFile ⟨true, false⟩ (.cut inc.encode m e)).2 with
      | error err' =>
        simp only [Entry.bytes, hr] at hstop
        cases hstop
        rfl
      | ok result =>
        simp only [Entry.bytes, hr] at hstop
        cases hstop
    rw [retrySafe_increment_iff inc hsel hkind' hstop']
    constructor
    · rintro hzero inc' ⟨⟩
      exact hzero
    · intro h
      exact h inc rfl

def defaultInterpreter (files : BackupFileList) : FileTarInterpreter := ⟨files, true, none, false⟩

/-- A full file whose first copy broke off at once. -/
theorem unwrapRegularFileNew_retry_full : RetrySafe (defaultInterpreter []) [] [] (.full [1]) 0 .broken :=
  (unwrapRegularFileNew_retry_iff (defaultInterpreter []) [] [] (.full [1]) 0 .broken .broken rfl
    (by decide) rfl).mpr (by rintro inc ⟨⟩)

/-- The source broke before the first byte of a one-page increment; the retry
finds an empty file and writes nothing into it. -/
theorem unwrapRegularFileNew_retry_loses_page :
    (unwrapRegularFileNew (defaultInterpreter [([], ⟨true, false, 0⟩)])
        (.cut (singlePage (filledPage 1)).encode 0 .broken) [] [] none).2 =
      .error (.read .broken) ∧
    ¬ RetrySafe (defaultInterpreter [([], ⟨true, false, 0⟩)]) [] []
      (.increment (singlePage (filledPage 1))) 0 .broken := by
  refine ⟨rfl, fun hsafe => ?_⟩
  have hzero := (retrySafe_increment_iff (singlePage (filledPage 1)) rfl rfl (e := .broken) rfl).mp
    hsafe
  cases hzero

end WalG.Restore
