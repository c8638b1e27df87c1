import WalG.Backup.DeltaMap
import WalG.Backup.PageScan

/-! # The delta map built by a full scan

Without a delta map the rating composer scans every file it adds and collects the selected blocks in
a map of its own.
-/
namespace WalG.Backup
open Foundation PageFile List

def convertBlocksToLocations (filePath : Text) (blocks : List ℕ) :
    Except RelFileError (List BlockLocation) :=
  match getRelFileNodeFrom filePath with
  | .error e => .error e
  | .ok relFileNode => .ok (blocks.map fun blockNo => ⟨relFileNode, .ofNat blockNo⟩)

inductive ReadLocationsError where
  | scan (e : ScanError)
  | relFile (e : RelFileError)
  deriving DecidableEq, Repr

def readIncrementLocations (filePath : Text) (file : Reader) (lsn : ℕ) :
    Except ReadLocationsError (List BlockLocation) :=
  match fullScanInitialize lsn file with
  | .error e => .error (.scan e)
  | .ok blocks => (convertBlocksToLocations filePath blocks).mapError .relFile

def scanDeltaMapFor (deltaMap : PagedFileDeltaMap) (filePath : Text) (file : Reader) (lsn : ℕ) :
    Except ReadLocationsError PagedFileDeltaMap :=
  match readIncrementLocations filePath file lsn with
  | .error e => .error e
  | .ok locations =>
    if locations.length = 0 then .ok deltaMap else .ok (addLocationsToDelta deltaMap locations)

/-- A relation segment file of valid or new pages. -/
structure SegmentFile where
  path : SegmentPath
  pages : List Page
  pages_valid : ∀ page ∈ pages, validOrNew page = true
  length_le : pages.length ≤ blocksInRelFile

namespace SegmentFile

def reader (f : SegmentFile) : Reader := .ofBytes (joinBlocks f.pages)

theorem fullScanInitialize_reader (f : SegmentFile) (lsn : ℕ) :
    fullScanInitialize lsn f.reader = .ok (selectedBlocks lsn f.pages) :=
  fullScanInitialize_pages f.pages_valid (lt_of_le_of_lt f.length_le (by decide))

theorem lt_blocksInRelFile (f : SegmentFile) {lsn b : ℕ} (hb : b ∈ selectedBlocks lsn f.pages) :
    b < blocksInRelFile := lt_of_lt_of_le (lt_of_mem_selectedBlocks hb) f.length_le

end SegmentFile

variable (root : Text) (lsn : ℕ) (files : List SegmentFile) (node : RelFileNode)

/-- One scan after the other, in the order of the list. -/
def scanAll (root : Text) (lsn : ℕ) :
    List SegmentFile → PagedFileDeltaMap → Except ReadLocationsError PagedFileDeltaMap
  | [], deltaMap => .ok deltaMap
  | f :: files, deltaMap =>
    match scanDeltaMapFor deltaMap (f.path.path root) f.reader lsn with
    | .error e => .error e
    | .ok deltaMap => scanAll root lsn files deltaMap

/-- All blocks that scans of the files of one relation select. -/
def relationBlocks (root : Text) (lsn : ℕ) (files : List SegmentFile) (node : RelFileNode) :
    Bitmap :=
  ((files.filter fun f => f.path.node root = node).flatMap fun f =>
    selectedBlocks lsn f.pages).toFinset

theorem mem_relationBlocks {root : Text} {lsn : ℕ} {files : List SegmentFile} {node : RelFileNode}
    {b : ℕ} : b ∈ relationBlocks root lsn files node ↔
      ∃ f ∈ files, f.path.node root = node ∧ b ∈ selectedBlocks lsn f.pages := by
  simp [relationBlocks, and_assoc]

theorem relationBlocks_cons (f : SegmentFile) : relationBlocks root lsn (f :: files) node =
      (if f.path.node root = node then (selectedBlocks lsn f.pages).toFinset else ∅) ∪
        relationBlocks root lsn files node := by
  unfold relationBlocks
  by_cases h : f.path.node root = node <;> simp [h]

theorem scanDeltaMapFor_file (deltaMap : PagedFileDeltaMap) (root : Text) (f : SegmentFile)
    (lsn : ℕ) : ∃ deltaMap', scanDeltaMapFor deltaMap (f.path.path root) f.reader lsn = .ok deltaMap' ∧
      ∀ node, deltaMap' node =
        if node = f.path.node root ∧ selectedBlocks lsn f.pages ≠ [] then
          some ((deltaMap node).getD ∅ ∪ (selectedBlocks lsn f.pages).toFinset)
        else deltaMap node := by
  simp only [scanDeltaMapFor, readIncrementLocations, f.fullScanInitialize_reader,
    convertBlocksToLocations, f.path.getRelFileNodeFrom_path, Except.mapError, length_map, length_eq_zero_iff]
  by_cases hnil : selectedBlocks lsn f.pages = []
  · rw [if_pos hnil]
    exact ⟨deltaMap, rfl, fun node => by simp [hnil]⟩
  · rw [if_neg hnil]
    refine ⟨_, rfl, fun node => addLocationsToDelta_apply _ _ _ (fun b hb => ?_) node⟩
    exact lt_trans (f.lt_blocksInRelFile hb) (by decide)

theorem scanAll_ok (deltaMap : PagedFileDeltaMap) :
    ∃ deltaMap', scanAll root lsn files deltaMap = .ok deltaMap' ∧ ∀ node, deltaMap' node =
      if relationBlocks root lsn files node = ∅ then deltaMap node
      else some ((deltaMap node).getD ∅ ∪ relationBlocks root lsn files node) := by
  induction files generalizing deltaMap with
  | nil => exact ⟨deltaMap, rfl, fun node => by simp [relationBlocks]⟩
  | cons f files ih =>
    obtain ⟨m₁, hm₁, h₁⟩ := scanDeltaMapFor_file deltaMap root f lsn
    obtain ⟨m₂, hm₂, h₂⟩ := ih m₁
    refine ⟨m₂, by rw [scanAll, hm₁]; exact hm₂, fun node => ?_⟩
    rw [h₂, h₁, relationBlocks_cons]
    by_cases hn : f.path.node root = node
    · by_cases hs : selectedBlocks lsn f.pages = []
      · simp [hn, hs]
      · by_cases hr : relationBlocks root lsn files node = ∅
        · simp [hn, hs, hr]
        · simp [hn, hs, hr, Finset.union_assoc]
    · simp [hn, Ne.symm hn]

theorem scanAll_new :
    ∃ deltaMap, scanAll root lsn files newPagedFileDeltaMap = .ok deltaMap ∧ ∀ node, deltaMap node =
      if relationBlocks root lsn files node = ∅ then none
      else some (relationBlocks root lsn files node) := by
  obtain ⟨m, hm, hmap⟩ := scanAll_ok root lsn files newPagedFileDeltaMap
  refine ⟨m, hm, fun node => ?_⟩
  rw [hmap]
  simp [newPagedFileDeltaMap]

/-- The map and the scan select the same pages of a file; a missing bitmap stands
for no page. -/
def SelectsSame (deltaMap : PagedFileDeltaMap) (root : Text) (lsn : ℕ) (f : SegmentFile) : Prop :=
  ∃ blocks, fullScanInitialize lsn f.reader = .ok blocks ∧
    (getDeltaBitmapFor deltaMap (f.path.path root) = .ok blocks.toFinset ∨
      getDeltaBitmapFor deltaMap (f.path.path root) = .error .noBitmapFound ∧ blocks = [])

/-- The bitmap lookups after the scans: the relation's blocks, cut down to the
segment as if they were numbered within the relation. -/
theorem selectsSame_iff {root : Text} {lsn : ℕ} {files : List SegmentFile}
    {deltaMap : PagedFileDeltaMap} (hmap : ∀ node, deltaMap node = if relationBlocks root lsn files node = ∅ then none
      else some (relationBlocks root lsn files node)) {f : SegmentFile} (hf : f ∈ files) :
    SelectsSame deltaMap root lsn f ↔
      (selectedBlocks lsn f.pages).toFinset =
        selectRelFileBlocks (relationBlocks root lsn files (f.path.node root)) f.path.segmentNo := by
  have hsub : (selectedBlocks lsn f.pages).toFinset ⊆
      relationBlocks root lsn files (f.path.node root) := by
    intro b hb
    exact mem_relationBlocks.mpr ⟨f, hf, rfl, mem_toFinset.mp hb⟩
  unfold SelectsSame
  simp only [f.fullScanInitialize_reader, Except.ok.injEq, exists_eq_left', getDeltaBitmapFor_path, hmap]
  by_cases hempty : relationBlocks root lsn files (f.path.node root) = ∅
  · have hnone : (selectedBlocks lsn f.pages).toFinset = ∅ :=
      Finset.subset_empty.mp (hempty ▸ hsub)
    simp only [hempty, if_true, reduceCtorEq, false_or, true_and, hnone]
    simpa [selectRelFileBlocks] using hnone
  · simp only [hempty, if_false, Except.ok.injEq, reduceCtorEq, false_and, or_false]
    exact eq_comm

theorem relationBlocks_lt {root : Text} {lsn : ℕ} {files : List SegmentFile} {node : RelFileNode}
    {b : ℕ} (hb : b ∈ relationBlocks root lsn files node) : b < blocksInRelFile := by
  obtain ⟨f, -, -, hsel⟩ := mem_relationBlocks.mp hb
  exact f.lt_blocksInRelFile hsel

theorem selectRelFileBlocks_first : selectRelFileBlocks (relationBlocks root lsn files node) 0 =
      relationBlocks root lsn files node := by
  ext b
  rw [mem_selectRelFileBlocks, Nat.zero_mul, Nat.zero_add]
  exact and_iff_right_of_imp relationBlocks_lt

theorem selectRelFileBlocks_later {n : ℕ} (hn : 1 ≤ n) :
    selectRelFileBlocks (relationBlocks root lsn files node) n = ∅ := by
  rw [Finset.eq_empty_iff_forall_notMem]
  intro b hb
  have hlt := relationBlocks_lt (mem_selectRelFileBlocks.mp hb).2
  have hle : 1 * blocksInRelFile ≤ n * blocksInRelFile := Nat.mul_le_mul_right _ hn
  omega

/-- After scanning a set of segment files into an empty map, the map selects the
scanned pages of every file exactly when no segment but the first has one, and
first segments of one relation agree. -/
theorem scanAll_selectsSame_iff (root : Text) (lsn : ℕ) (files : List SegmentFile) :
    ∃ deltaMap, scanAll root lsn files newPagedFileDeltaMap = .ok deltaMap ∧
      ((∀ f ∈ files, SelectsSame deltaMap root lsn f) ↔
        (∀ f ∈ files, 1 ≤ f.path.segmentNo → selectedBlocks lsn f.pages = []) ∧
          ∀ f ∈ files, ∀ g ∈ files, f.path.segmentNo = 0 → g.path.segmentNo = 0 → f.path.node root = g.path.node root →
              (selectedBlocks lsn f.pages).toFinset = (selectedBlocks lsn g.pages).toFinset) := by
  obtain ⟨m, hm, hmap⟩ := scanAll_new root lsn files
  refine ⟨m, hm, ?_, ?_⟩
  · intro h
    have hsame := fun f hf => (selectsSame_iff hmap hf).mp (h f hf)
    constructor
    · intro f hf hn
      rw [← toFinset_eq_empty_iff, hsame f hf, selectRelFileBlocks_later _ _ _ _ hn]
    · intro f hf g hg hfn hgn hnode
      rw [hsame f hf, hsame g hg, hfn, hgn, hnode]
  · rintro ⟨hlater, hfirst⟩ f hf
    rw [selectsSame_iff hmap hf]
    rcases Nat.eq_zero_or_pos f.path.segmentNo with hzero | hpos
    · rw [hzero, selectRelFileBlocks_first]
      ext b
      rw [mem_relationBlocks, mem_toFinset]
      constructor
      · intro hb
        exact ⟨f, hf, rfl, hb⟩
      · rintro ⟨g, hg, hnode, hb⟩
        rcases Nat.eq_zero_or_pos g.path.segmentNo with hgzero | hgpos
        · rw [← mem_toFinset, hfirst f hf g hg hzero hgzero hnode.symm]
          exact mem_toFinset.mpr hb
        · rw [hlater g hg hgpos] at hb
          cases hb
    · rw [hlater f hf hpos, selectRelFileBlocks_later _ _ _ _ hpos]
      rfl

/-- The second segment of a relation, with one new page. -/
def secondSegment : SegmentFile where
  path := ⟨none, 1, 1, some 1, SegmentPath.no_tablespace, by simp⟩
  pages := [emptyPage]
  pages_valid := by simpa using validOrNew_emptyPage
  length_le := by decide

/-- Its page is selected by the scan but not by the map. -/
theorem scanAll_drops_second_segment :
    ¬ ∃ deltaMap, scanAll [] 0 [secondSegment] newPagedFileDeltaMap = .ok deltaMap ∧
      ∀ f ∈ [secondSegment], SelectsSame deltaMap [] 0 f := by
  rintro ⟨deltaMap, hscan, hsame⟩
  obtain ⟨m, hm, hmap⟩ := scanAll_new [] 0 [secondSegment]
  obtain rfl : m = deltaMap := Except.ok.inj (hm.symm.trans hscan)
  have hsel := (selectsSame_iff hmap mem_cons_self).mp (hsame _ mem_cons_self)
  rw [selectRelFileBlocks_later _ _ _ _ (by decide), toFinset_eq_empty_iff] at hsel
  have hzero : 0 ∈ selectedBlocks 0 secondSegment.pages :=
    mem_selectedBlocks.mpr ⟨emptyPage, rfl, isSelected_emptyPage 0⟩
  rw [hsel] at hzero
  cases hzero

end WalG.Backup
