import WalG.Foundation.Text
import WalG.Foundation.Bytes

/-! # The block index of a blob

The index lists the blocks of a blob in order.
-/
namespace WalG.Blob
open Foundation List

inductive BlockMode where
  | committed
  | uncommitted
  | latest
  deriving DecidableEq, Repr

structure Block where
  offset : ℕ
  uploadedSize : ℕ
  uploadedRev : ℕ
  committedSize : ℕ
  committedRev : ℕ
  deriving DecidableEq, Repr

structure Index where
  size : ℕ
  /-- The ids of the listed blocks, in order. -/
  blocks : List Text
  icache : Text → Option Block

/-- One entry of a block list request. -/
structure XBlockIn where
  id : Text
  mode : BlockMode
  deriving DecidableEq, Repr

inductive BlobError where
  | notUploaded (id : Text)
  | notCommitted (id : Text)
  deriving DecidableEq, Repr

def newIndex : Index := ⟨0, [], fun _ => none⟩

/-- The name of the object that holds a revision of a block. -/
def objectName (id : Text) (rev : ℕ) : Text := id ++ '.' :: decimal rev

namespace Block

variable (b : Block)

def commit : Block :=
  { b with committedRev := b.uploadedRev, committedSize := b.uploadedSize, uploadedRev := 0, uploadedSize := 0 }

/-- What a list entry makes of its block, and the revision it discards. In the committed mode the
discarded upload is named after its revision was reset. -/
def select (id : Text) : BlockMode → Except BlobError (Block × Option ℕ)
  | .committed =>
    if b.committedRev = 0 then .error (.notCommitted id)
    else if b.uploadedRev ≠ 0 then .ok ({ b with uploadedRev := 0, uploadedSize := 0 }, some 0)
    else .ok (b, none)
  | .uncommitted =>
    if b.uploadedRev = 0 then .error (.notCommitted id)
    else .ok (b.commit, if b.committedRev ≠ 0 then some b.committedRev else none)
  | .latest =>
    if b.uploadedRev ≠ 0 then .ok (b.commit, if b.committedRev ≠ 0 then some b.committedRev else none)
    else .ok (b, none)

/-- The objects of a block that is given up. -/
def objects (id : Text) : List Text :=
  (if b.uploadedRev ≠ 0 then [objectName id b.uploadedRev] else []) ++
    (if b.committedRev ≠ 0 then [objectName id b.committedRev] else [])

theorem mem_objects_iff {b : Block} {id name : Text} : name ∈ b.objects id ↔
    (b.uploadedRev ≠ 0 ∧ name = objectName id b.uploadedRev) ∨
      (b.committedRev ≠ 0 ∧ name = objectName id b.committedRev) := by
  rw [objects, mem_append]
  refine or_congr ?_ ?_
  · split_ifs with h <;> simp [h]
  · split_ifs with h <;> simp [h]

theorem exists_rev_of_mem_objects {b : Block} {id name : Text} (h : name ∈ b.objects id) :
    ∃ rev, name = objectName id rev ∧ (rev = b.uploadedRev ∨ rev = b.committedRev) := by
  rcases mem_objects_iff.mp h with ⟨-, hname⟩ | ⟨-, hname⟩
  · exact ⟨_, hname, .inl rfl⟩
  · exact ⟨_, hname, .inr rfl⟩

end Block

namespace Index

variable (idx : Index)

def setBlock (id : Text) (b : Block) : Index := { idx with icache := Function.update idx.icache id (some b) }

/-- The name to upload the block under. A block that is not in the index starts at revision one. -/
def putBlock (id : Text) (size : ℕ) : Text × Index :=
  match idx.icache id with
  | none => (objectName id 1, { idx with blocks := idx.blocks ++ [id] }.setBlock id ⟨0, size, 1, 0, 0⟩)
  | some b =>
    (objectName id (b.committedRev + 1),
      idx.setBlock id { b with uploadedRev := b.committedRev + 1, uploadedSize := size })

/-- The state of the loop over the entries of a block list. -/
structure ListRun where
  icache : Text → Option Block
  newBlocks : List Text
  garbage : List Text
  size : ℕ

/-- The loop stops at the first entry it cannot serve; what it did to the blocks by then stays done. -/
def putEntries (run : ListRun) : List XBlockIn → Option BlobError × ListRun
  | [] => (none, run)
  | entry :: entries =>
    match run.icache entry.id with
    | none => (some (.notUploaded entry.id), run)
    | some b =>
      match { b with offset := run.size }.select entry.id entry.mode with
      | .error e =>
        (some e, { run with icache := Function.update run.icache entry.id (some { b with offset := run.size }) })
      | .ok (b', discarded) =>
        putEntries
          { icache := Function.update run.icache entry.id (some b')
            newBlocks := run.newBlocks ++ [entry.id]
            garbage := run.garbage ++ (discarded.map (objectName entry.id)).toList
            size := (run.size + b'.committedSize) % 2 ^ 64 } entries

/-- Replace the list of blocks. The objects of replaced revisions and of blocks no longer listed are garbage. -/
def putBlockList (entries : List XBlockIn) : Except BlobError (List Text) × Index :=
  match putEntries ⟨idx.icache, [], [], 0⟩ entries with
  | (some e, run) => (.error e, { idx with icache := run.icache })
  | (none, run) =>
    (.ok (run.garbage ++ (idx.blocks.filter (· ∉ run.newBlocks)).flatMap fun id =>
        (run.icache id).elim [] fun b => b.objects id),
      ⟨run.size, run.newBlocks, fun id => if id ∈ run.newBlocks then run.icache id else none⟩)

def clear : List Text × Index :=
  (idx.blocks.flatMap fun id => (idx.icache id).elim [] fun b => b.objects id,
    { idx with blocks := [], icache := fun _ => none })

end Index

section Names

/-- The revision is what follows the last dot. -/
theorem objectName_injective {id id' : Text} {rev rev' : ℕ} (h : objectName id rev = objectName id' rev') :
    id = id' ∧ rev = rev' := by
  have hdot : ∀ n : ℕ, '.' ∉ decimal n := fun n => notMem_decimal rfl
  have hname : ∀ (id : Text) (rev : ℕ), (objectName id rev).rtakeWhile (· ≠ '.') = decimal rev := by
    intro id rev
    have hall : ∀ c ∈ decimal rev, decide (c ≠ '.') = true := fun c hc => by
      rw [decide_eq_true_eq]
      rintro rfl
      exact hdot rev hc
    rw [objectName, rtakeWhile, reverse_append, reverse_cons, append_assoc,
      takeWhile_append_of_pos (by simpa using hall)]
    simp
  have hdigits : decimal rev = decimal rev' := by rw [← hname id rev, h, hname]
  have hrev : rev = rev' := by
    have h₁ : Nat.ofDigitChars 10 (decimal rev) 0 = rev := Nat.ofDigitChars_ten_toDigits
    have h₂ : Nat.ofDigitChars 10 (decimal rev') 0 = rev' := Nat.ofDigitChars_ten_toDigits
    rw [← h₁, hdigits, h₂]
  subst hrev
  exact ⟨append_cancel_right h, rfl⟩

end Names

end WalG.Blob
