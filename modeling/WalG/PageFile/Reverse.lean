import WalG.PageFile.Apply

/-! # Writing pages in reverse order of a delta chain

The reverse unpack creates a file from the newest increment and then fills in pages from older ones.
-/
namespace WalG.PageFile
open Foundation

/-- A page is missing when its header is all zeros. -/
def checkIfMissingPage (target : Bytes) (blockNo : ℕ) : Except FileError Bool :=
  match readAt target (blockNo * databasePageSize) headerSize with
  | none => .error (.read .eof)
  | some pageHeader => .ok (pageHeader = List.replicate headerSize 0)

/-- The target, whether the page was written, and the content left to read. -/
def writePage (target : Bytes) (blockNo : ℕ) (content : Reader) (overwrite : Bool) :
    Bytes × Except FileError (Bool × Reader) :=
  match readFull content databasePageSize with
  | .error e => (target, .error e)
  | .ok (page, content) =>
    if overwrite then (writeAt target (blockNo * databasePageSize) page, .ok (true, content))
    else
      match checkIfMissingPage target blockNo with
      | .error e => (target, .error e)
      | .ok false => (target, .ok (false, content))
      | .ok true => (writeAt target (blockNo * databasePageSize) page, .ok (true, content))

/-- The keys of the block set, from entry `i` on with `k` entries left. -/
def deltaBlockNumbers (diffMap : Bytes) : ℕ → ℕ → Except FileError (List ℕ)
  | 0, _ => .ok []
  | k + 1, i =>
    match diffMapBlock diffMap i with
    | .error e => .error e
    | .ok blockNo =>
      match deltaBlockNumbers diffMap k (i + 1) with
      | .error e => .error e
      | .ok blockNos => .ok (blockNo :: blockNos)

/-- The page loop from block `i` on with `k` blocks left and the counter of
blocks that no page was found for. -/
def createPages (blockNos : List ℕ) :
    ℕ → ℕ → ℤ → Reader → Bytes → Bytes × Except FileError (ℤ × Reader)
  | 0, _, missingBlockCount, increment, target => (target, .ok (missingBlockCount, increment))
  | k + 1, i, missingBlockCount, increment, target =>
    if i ∈ blockNos then
      match writePage target i increment true with
      | (target, .error e) => (target, .error e)
      | (target, .ok (_, increment)) =>
        createPages blockNos k (i + 1) (missingBlockCount - 1) increment target
    else
      createPages blockNos k (i + 1) missingBlockCount increment
        (writeAt target (i * databasePageSize) emptyPage.toList)

/-- Extra data behind the pages is only logged. -/
def createFileFromIncrement (increment : Reader) (target : Bytes) : Bytes × Except FileError ℤ :=
  match getIncrementHeaderFields increment with
  | .error e => (target, .error e)
  | .ok (h, increment) =>
    match deltaBlockNumbers h.diffMap h.diffBlockCount 0 with
    | .error e => (target, .error e)
    | .ok blockNos =>
      let pageCount := h.fileSize / databasePageSize
      match createPages blockNos pageCount 0 pageCount increment target with
      | (target, .error e) => (target, .error e)
      | (target, .ok (missingBlockCount, _)) => (target, .ok missingBlockCount)

/-- The page loop of the fill: pages past the end of the target are read over. -/
def writePages (diffMap : Bytes) (targetPageCount : ℕ) (overwriteExisting : Bool) :
    ℕ → ℕ → ℕ → Reader → Bytes → Bytes × Except FileError (ℕ × Reader)
  | 0, _, restoredBlockCount, increment, target => (target, .ok (restoredBlockCount, increment))
  | k + 1, i, restoredBlockCount, increment, target =>
    match diffMapBlock diffMap i with
    | .error e => (target, .error e)
    | .ok blockNo =>
      if targetPageCount ≤ blockNo then
        match (increment.discard databasePageSize).mapError FileError.read with
        | .error e => (target, .error e)
        | .ok increment =>
          writePages diffMap targetPageCount overwriteExisting k (i + 1) restoredBlockCount
            increment target
      else
        match writePage target blockNo increment overwriteExisting with
        | (target, .error e) => (target, .error e)
        | (target, .ok (wrotePage, increment)) =>
          writePages diffMap targetPageCount overwriteExisting k (i + 1)
            (if wrotePage then restoredBlockCount + 1 else restoredBlockCount) increment target

def writePagesFromIncrement (increment : Reader) (target : Bytes) (overwriteExisting : Bool) :
    Bytes × Except FileError ℕ :=
  match getIncrementHeaderFields increment with
  | .error e => (target, .error e)
  | .ok (h, increment) =>
    match writePages h.diffMap (target.length / databasePageSize) overwriteExisting
      h.diffBlockCount 0 0 increment target with
    | (target, .error e) => (target, .error e)
    | (target, .ok (restoredBlockCount, increment)) =>
      (target, if increment.data = [] then .ok restoredBlockCount else .error .unexpectedTarData)

/-- The page loop over a base file; it ends quietly where the base ends. -/
def restorePages : ℕ → ℕ → Reader → Bytes → Bytes × Except FileError Unit
  | 0, _, _, target => (target, .ok ())
  | k + 1, i, base, target =>
    match writePage target i base false with
    | (target, .error e) => (target, if e = .read .eof then .ok () else .error e)
    | (target, .ok (_, base)) => restorePages k (i + 1) base target

def restoreMissingPages (base : Reader) (target : Bytes) : Bytes × Except FileError Unit :=
  restorePages (target.length / databasePageSize) 0 base target

end WalG.PageFile
