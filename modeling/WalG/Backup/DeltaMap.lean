import WalG.PageFile.RelFile
import Mathlib.Data.Finset.Sort

/-! # The delta map of a backup

For each relation the map holds the changed blocks, numbered within the whole relation.
-/
namespace WalG.Backup
open Foundation PageFile

abbrev Bitmap := Finset ℕ

abbrev PagedFileDeltaMap := RelFileNode → Option Bitmap

def newPagedFileDeltaMap : PagedFileDeltaMap := fun _ => none

def addLocationToDelta (deltaMap : PagedFileDeltaMap) (location : BlockLocation) :
    PagedFileDeltaMap :=
  let bitmap := match deltaMap location.relationFileNode with
    | none => {location.blockNo.toNat}
    | some bitmap => insert location.blockNo.toNat bitmap
  Function.update deltaMap location.relationFileNode (some bitmap)

def addLocationsToDelta (deltaMap : PagedFileDeltaMap) (locations : List BlockLocation) :
    PagedFileDeltaMap := locations.foldl addLocationToDelta deltaMap

inductive DeltaMapError where
  | noBitmapFound
  | relFile (e : RelFileError)
  deriving DecidableEq, Repr

def selectRelFileBlocks (bitmap : Bitmap) (relFileID : ℕ) : Bitmap :=
  (bitmap.filter fun b => relFileID * blocksInRelFile ≤ b ∧ b < (relFileID + 1) * blocksInRelFile).image
    (· - relFileID * blocksInRelFile)

def getDeltaBitmapFor (deltaMap : PagedFileDeltaMap) (filePath : Text) :
    Except DeltaMapError Bitmap :=
  match getRelFileNodeFrom filePath with
  | .error e => .error (.relFile e)
  | .ok relFileNode =>
    match deltaMap relFileNode with
    | none => .error .noBitmapFound
    | some bitmap =>
      match getRelFileIDFrom filePath with
      | .error e => .error (.relFile e)
      | .ok relFileID => .ok (selectRelFileBlocks bitmap relFileID)

theorem mem_selectRelFileBlocks {bitmap : Bitmap} {relFileID b : ℕ} :
    b ∈ selectRelFileBlocks bitmap relFileID ↔
      b < blocksInRelFile ∧ relFileID * blocksInRelFile + b ∈ bitmap := by
  simp only [selectRelFileBlocks, Finset.mem_image, Finset.mem_filter]
  constructor
  · rintro ⟨a, ⟨ha, hlo, hhi⟩, rfl⟩
    rw [Nat.succ_mul] at hhi
    exact ⟨by omega, by rwa [Nat.add_sub_cancel' hlo]⟩
  · rintro ⟨hb, hmem⟩
    refine ⟨_, ⟨hmem, Nat.le_add_right _ _, ?_⟩, Nat.add_sub_cancel_left _ _⟩
    rw [Nat.succ_mul]
    omega

/-- On the path of a segment file the lookup reads the relation's bitmap. -/
theorem getDeltaBitmapFor_path (deltaMap : PagedFileDeltaMap) (root : Text) (p : SegmentPath) :
    getDeltaBitmapFor deltaMap (p.path root) =
      match deltaMap (p.node root) with
      | none => .error .noBitmapFound
      | some bitmap => .ok (selectRelFileBlocks bitmap p.segmentNo) := by
  simp only [getDeltaBitmapFor, p.getRelFileNodeFrom_path, p.getRelFileIDFrom_path]

theorem addLocationToDelta_apply (deltaMap : PagedFileDeltaMap) (location : BlockLocation) (node : RelFileNode) :
    addLocationToDelta deltaMap location node =
      if node = location.relationFileNode then
        some (insert location.blockNo.toNat ((deltaMap node).getD ∅))
      else deltaMap node := by
  unfold addLocationToDelta
  by_cases h : node = location.relationFileNode
  · subst h
    cases deltaMap location.relationFileNode <;> simp
  · simp [h]

theorem addLocationsToDelta_apply (deltaMap : PagedFileDeltaMap) (node' : RelFileNode)
    (blocks : List ℕ) (hlt : ∀ b ∈ blocks, b < 2 ^ 32) (node : RelFileNode) :
    addLocationsToDelta deltaMap (blocks.map fun b => ⟨node', .ofNat b⟩) node =
      if node = node' ∧ blocks ≠ [] then some ((deltaMap node).getD ∅ ∪ blocks.toFinset)
      else deltaMap node := by
  induction blocks generalizing deltaMap with
  | nil => simp [addLocationsToDelta]
  | cons b blocks ih =>
    rw [List.forall_mem_cons] at hlt
    have hb : (UInt32.ofNat b).toNat = b := UInt32.toNat_ofNat_of_lt' hlt.1
    change addLocationsToDelta (addLocationToDelta deltaMap ⟨node', .ofNat b⟩) _ node = _
    rw [ih _ hlt.2, addLocationToDelta_apply]
    by_cases hn : node = node'
    · by_cases hnil : blocks = []
      · simp [hn, hnil, hb]
      · simp only [hn, hnil, hb, ne_eq, not_false_eq_true, and_self, if_true, Option.getD_some,
          reduceCtorEq, List.toFinset_cons]
        rw [Finset.insert_union, Finset.union_insert]
    · simp [hn]

end WalG.Backup
