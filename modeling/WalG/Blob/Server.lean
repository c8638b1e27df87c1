import WalG.Blob.Index

/-! # The requests of the blob proxy

A request changes the index first, then writes its objects and the index, and deletes the garbage
last.
-/
namespace WalG.Blob
open Foundation

inductive Request where
  | putBlock (blockID : Text) (body : Bytes)
  | putBlockList (entries : List XBlockIn)
  | putBlob (body : Bytes)

structure Server where
  /-- A blob without an index is not found. -/
  index : Option Index
  objects : Text → Option Bytes
  /-- History: the bytes last uploaded under each name. No handler reads it. -/
  uploaded : Text → Option Bytes

namespace Server

variable (s : Server)

def putObject (name : Text) (body : Bytes) : Server :=
  { s with
    objects := Function.update s.objects name (some body)
    uploaded := Function.update s.uploaded name (some body) }

def deleteGarbage (garbage : List Text) : Server :=
  { s with objects := fun name => if name ∈ garbage then none else s.objects name }

def setIndex (idx : Index) : Server := { s with index := some idx }

def handleBlockPut (blockID : Text) (body : Bytes) : Server :=
  match s.index with
  | none => s
  | some idx =>
    -- the content length has to fit 64 bits
    if 2 ^ 64 ≤ body.length then s
    else (s.setIndex (idx.putBlock blockID body.length).2).putObject (idx.putBlock blockID body.length).1 body

def handleBlockListPut (entries : List XBlockIn) : Server :=
  match s.index with
  | none => s
  | some idx =>
    match idx.putBlockList entries with
    | (.error _, idx') => s.setIndex idx'
    | (.ok garbage, idx') => (s.setIndex idx').deleteGarbage garbage

def dataID : Text := ['d', 'a', 't', 'a']

def handleBlobPut (body : Bytes) : Server :=
  let idx := s.index.getD newIndex
  if 2 ^ 64 ≤ body.length then s
  else
    let garbage := idx.clear.1
    if body.length = 0 then (s.setIndex idx.clear.2).deleteGarbage garbage
    else
      let put := idx.clear.2.putBlock dataID body.length
      match put.2.putBlockList [⟨dataID, .latest⟩] with
      | (.error _, idx') => (s.setIndex idx').putObject put.1 body
      | (.ok _, idx') => ((s.setIndex idx').putObject put.1 body).deleteGarbage garbage

def handle : Request → Server
  | .putBlock blockID body => s.handleBlockPut blockID body
  | .putBlockList entries => s.handleBlockListPut entries
  | .putBlob body => s.handleBlobPut body

end Server

/-- A server that has not seen the blob; the storage may hold anything. -/
def newServer (objects : Text → Option Bytes) : Server := ⟨none, objects, fun _ => none⟩

def Index.committedSize (idx : Index) (id : Text) : ℕ := (idx.icache id).elim 0 Block.committedSize

/-- Every committed block of the index has its object, with the bytes uploaded for that revision and
the recorded length, and the index has the size of its blocks. -/
def Server.Live (s : Server) : Prop :=
  ∀ idx, s.index = some idx →
    (∀ id ∈ idx.blocks, ∀ b, idx.icache id = some b → b.committedRev ≠ 0 →
      ∃ bytes, s.objects (objectName id b.committedRev) = some bytes ∧
        s.uploaded (objectName id b.committedRev) = some bytes ∧ bytes.length = b.committedSize) ∧
    idx.size = (idx.blocks.map idx.committedSize).sum % 2 ^ 64

/-- The second of two puts of a whole blob deletes what it has just written: the new object has the
name of the old one. -/
theorem putBlob_putBlob_not_live :
    ¬ ([Request.putBlob [1], .putBlob [2]].foldl Server.handle (newServer fun _ => none)).Live := by
  intro h
  obtain ⟨hobjects, -⟩ := h _ rfl
  obtain ⟨bytes, hbytes, -⟩ := hobjects Server.dataID (by decide) _ rfl (by decide)
  have hnone : ([Request.putBlob [1], .putBlob [2]].foldl Server.handle (newServer fun _ => none)).objects
      (objectName Server.dataID 1) = none := by decide
  exact nomatch hnone.symm.trans hbytes

end WalG.Blob
