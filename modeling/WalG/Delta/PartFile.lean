import WalG.Backup.DeltaDownload
import WalG.XLog.Page

/-! # Part files of a delta group

Records that cross the border of two segments are cut into a head and a tail, and the part file of a
group keeps them until all are there: a tail and a head of each of the sixteen segments, and the
head of the segment before the group.
-/
namespace WalG.Delta
open Foundation Backup XLog List Function

/-- A position in a group of segments. -/
abbrev Position := Fin walFileInDelta

structure WalPart where
  dataType : ℕ
  id : ℕ
  data : Bytes

def previousWalHeadType : ℕ := 0
def walTailType : ℕ := 1
def walHeadType : ℕ := 2

def WalPart.save (part : WalPart) : Bytes :=
  leBytes 1 part.dataType ++ leBytes 1 part.id ++ leBytes 4 part.data.length ++ part.data

def loadWalPart (r : Reader) : Except ReadError (WalPart × Reader) := do
  let (dataType, r) ← r.readLE 1
  let (id, r) ← r.readLE 1
  let (dataLen, r) ← r.readLE 4
  let (data, r) ← r.readFull dataLen
  .ok (⟨dataType, id, data⟩, r)

/-- A part that was never saved is `none`, one without bytes is `some []`. -/
@[ext] structure WalPartFile where
  walTails : Position → Option Bytes
  previousWalHead : Option Bytes
  walHeads : Position → Option Bytes

def newWalPartFile : WalPartFile := ⟨fun _ => none, none, fun _ => none⟩

inductive LoadError where
  | read (e : ReadError)
  | parser (e : ParseError)
  /-- The program ends with an index out of range. -/
  | index (id : ℕ)

namespace WalPartFile

variable (partFile : WalPartFile)

def isComplete : Bool :=
  (finRange walFileInDelta).all (fun id => (partFile.walTails id).isSome) && partFile.previousWalHead.isSome &&
    (finRange walFileInDelta).all fun id => (partFile.walHeads id).isSome

def partsOf (dataType : ℕ) (parts : Position → Option Bytes) (ids : List Position) : List WalPart :=
  ids.filterMap fun id => (parts id).map fun data => ⟨dataType, id, data⟩

def walParts : List WalPart :=
  partsOf walTailType partFile.walTails (finRange walFileInDelta) ++
    (partFile.previousWalHead.toList.map fun data => ⟨previousWalHeadType, 0, data⟩) ++
    partsOf walHeadType partFile.walHeads (finRange walFileInDelta)

def save : Bytes := partFile.walParts.flatMap WalPart.save

/-- A part of an unknown type is passed over. -/
def setPart (part : WalPart) : Except LoadError WalPartFile :=
  if part.dataType = previousWalHeadType then .ok { partFile with previousWalHead := some part.data }
  else if part.dataType = walTailType then
    if h : part.id < walFileInDelta then
      .ok { partFile with walTails := update partFile.walTails ⟨part.id, h⟩ (some part.data) }
    else .error (.index part.id)
  else if part.dataType = walHeadType then
    if h : part.id < walFileInDelta then
      .ok { partFile with walHeads := update partFile.walHeads ⟨part.id, h⟩ (some part.data) }
    else .error (.index part.id)
  else .ok partFile

def getCurrentDeltaFileRecordHeads (id : Position) : Option Bytes :=
  if h : id.val = 0 then partFile.previousWalHead else partFile.walHeads ⟨id - 1, by omega⟩

/-- The bytes on both sides of the border before a segment. -/
def recordData (id : Position) : Bytes :=
  (partFile.getCurrentDeltaFileRecordHeads id).getD [] ++ (partFile.walTails id).getD []

def combineRecordsOf : List Position → Except ParseError (List XLogRecord)
  | [] => .ok []
  | id :: ids =>
    if partFile.recordData id = [] then combineRecordsOf ids
    else do
      let record ← parseXLogRecordFromBytes (partFile.recordData id)
      let records ← combineRecordsOf ids
      .ok (record :: records)

def combineRecords : Except ParseError (List XLogRecord) :=
  partFile.combineRecordsOf (finRange walFileInDelta)

end WalPartFile

theorem readLE_data_length {r r' : Reader} {n value : ℕ} (h : r.readLE n = .ok (value, r')) :
    r.data.length = n + r'.data.length := by
  obtain ⟨-, hdata, -⟩ := Reader.readLE_iff.mp h
  rw [hdata, length_append, leBytes_length]

theorem loadWalPart_length {r r' : Reader} {part : WalPart} (h : loadWalPart r = .ok (part, r')) :
    r'.data.length < r.data.length := by
  obtain ⟨⟨dataType, r₁⟩, h₁, h⟩ := bind_ok h
  obtain ⟨⟨id, r₂⟩, h₂, h⟩ := bind_ok h
  obtain ⟨⟨dataLen, r₃⟩, h₃, h⟩ := bind_ok h
  obtain ⟨⟨data, r₄⟩, h₄, h⟩ := bind_ok h
  cases h
  have hlen₁ := readLE_data_length h₁
  have hlen₂ : r₁.data.length = 1 + r₂.data.length := readLE_data_length h₂
  have hlen₃ : r₂.data.length = 4 + r₃.data.length := readLE_data_length h₃
  obtain ⟨-, -, rfl⟩ := Reader.readFull_ok h₄
  simp only [length_drop]
  omega

/-- Parts are read until the file ends, also in the middle of a part but between two fields. -/
def loadParts (partFile : WalPartFile) (r : Reader) : Except LoadError WalPartFile :=
  match _hload : loadWalPart r with
  | .error .eof => .ok partFile
  | .error e => .error (.read e)
  | .ok (part, r') =>
    match partFile.setPart part with
    | .error e => .error e
    | .ok partFile => loadParts partFile r'
termination_by r.data.length
decreasing_by exact loadWalPart_length _hload

def loadPartFile (data : Bytes) : Except LoadError WalPartFile := loadParts newWalPartFile (.ofBytes data)

section RoundTrip

/-- What the fields of a part have room for. -/
structure WalPart.Fits (part : WalPart) : Prop where
  dataType : part.dataType < 256
  id : part.id < 256
  data : part.data.length < 2 ^ 32

theorem loadWalPart_save {part : WalPart} (h : part.Fits) (rest : Bytes) :
    loadWalPart (.ofBytes (part.save ++ rest)) = .ok (part, .ofBytes rest) := by
  have htype : part.dataType % 256 ^ 1 = part.dataType := Nat.mod_eq_of_lt h.dataType
  have hid : part.id % 256 ^ 1 = part.id := Nat.mod_eq_of_lt h.id
  have hlen : part.data.length % 256 ^ 4 = part.data.length := Nat.mod_eq_of_lt h.data
  simp only [loadWalPart, WalPart.save, Reader.ofBytes, append_assoc, Reader.readLE_append, ok_bind, htype, hid,
    hlen, Reader.readFull_append]

theorem loadParts_save (parts : List WalPart) (h : ∀ part ∈ parts, part.Fits) (partFile : WalPartFile) :
    loadParts partFile (.ofBytes (parts.flatMap WalPart.save)) =
      parts.foldlM WalPartFile.setPart partFile := by
  induction parts generalizing partFile with
  | nil =>
    rw [loadParts]
    rfl
  | cons part parts ih =>
    have hload := loadWalPart_save (h part mem_cons_self) (parts.flatMap WalPart.save)
    rw [flatMap_cons, loadParts, foldlM_cons]
    split
    · rename_i heq
      cases hload.symm.trans heq
    · rename_i heq
      cases hload.symm.trans heq
    · rename_i part' r' heq
      cases hload.symm.trans heq
      cases partFile.setPart part with
      | error e => rfl
      | ok partFile' => exact ih (fun part hpart => h part (mem_cons_of_mem _ hpart)) partFile'

namespace WalPartFile

variable (parts old : Position → Option Bytes) {dataType : ℕ} (partFile : WalPartFile) (id : Position) (data : Bytes)

theorem setPart_tail : partFile.setPart ⟨walTailType, id, data⟩ =
      .ok { partFile with walTails := update partFile.walTails id (some data) } := by
  simp only [setPart, id.isLt, Fin.eta]
  rfl

theorem setPart_head : partFile.setPart ⟨walHeadType, id, data⟩ =
      .ok { partFile with walHeads := update partFile.walHeads id (some data) } := by
  simp only [setPart, id.isLt, Fin.eta]
  rfl

/-- The parts of some positions put over those that are there. -/
def overlay (parts old : Position → Option Bytes) (ids : List Position) : Position → Option Bytes :=
  fun id => if id ∈ ids then (parts id).or (old id) else old id

theorem overlay_cons (ids : List Position) :
    overlay parts (match parts id with | some data => update old id (some data) | none => old) ids =
      overlay parts old (id :: ids) := by
  funext id'
  simp only [overlay, mem_cons]
  cases hpart : parts id with
  | none =>
    by_cases hid : id' = id
    · subst hid
      simp [hpart]
    · simp [hid]
  | some data =>
    by_cases hid : id' = id
    · subst hid
      simp [hpart]
    · simp [hid]

theorem foldlM_partsOf {put : (Position → Option Bytes) → WalPartFile}
    (hput : ∀ old (id : Position) data, (put old).setPart ⟨dataType, id, data⟩ = .ok (put (update old id (some data))))
    (parts : Position → Option Bytes) (ids : List Position) (old : Position → Option Bytes) :
    (partsOf dataType parts ids).foldlM setPart (put old) = .ok (put (overlay parts old ids)) := by
  induction ids generalizing old with
  | nil => rfl
  | cons id ids ih =>
    rw [← overlay_cons]
    cases hpart : parts id with
    | none =>
      rw [partsOf, filterMap_cons_none (by rw [hpart]; rfl)]
      exact ih old
    | some data =>
      rw [partsOf, filterMap_cons_some (by rw [hpart]; rfl), foldlM_cons, hput]
      exact ih _

theorem overlay_all : overlay parts (fun _ => none) (finRange walFileInDelta) = parts := by
  funext id
  simp [overlay]

theorem foldlM_walParts : partFile.walParts.foldlM setPart newWalPartFile = .ok partFile := by
  obtain ⟨tails, previous, heads⟩ := partFile
  have htails := foldlM_partsOf (fun old => setPart_tail ⟨old, none, fun _ => none⟩) tails
    (finRange walFileInDelta) fun _ => none
  have hheads := foldlM_partsOf (fun old => setPart_head ⟨tails, previous, old⟩) heads
    (finRange walFileInDelta) fun _ => none
  rw [overlay_all] at htails hheads
  rw [walParts, foldlM_append, foldlM_append, newWalPartFile, htails, ok_bind]
  cases previous with
  | none => exact hheads
  | some data => exact hheads

/-- Every part is short enough for the length field of the file. -/
structure Fits (partFile : WalPartFile) : Prop where
  tails : ∀ id data, partFile.walTails id = some data → data.length < 2 ^ 32
  previous : ∀ data, partFile.previousWalHead = some data → data.length < 2 ^ 32
  heads : ∀ id data, partFile.walHeads id = some data → data.length < 2 ^ 32

theorem fits_of_mem_partsOf (htype : dataType < 256) {parts : Position → Option Bytes}
    (hparts : ∀ id data, parts id = some data → data.length < 2 ^ 32) {ids : List Position} {part : WalPart}
    (h : part ∈ partsOf dataType parts ids) : part.Fits := by
  obtain ⟨id, -, hid⟩ := mem_filterMap.mp h
  obtain ⟨data, hdata, rfl⟩ := Option.map_eq_some_iff.mp hid
  exact ⟨htype, id.isLt.trans (by decide), hparts id data hdata⟩

theorem loadPartFile_save {partFile : WalPartFile} (h : partFile.Fits) : loadPartFile partFile.save = .ok partFile := by
  rw [loadPartFile, save, loadParts_save, foldlM_walParts]
  intro part hpart
  rw [walParts, mem_append, mem_append] at hpart
  rcases hpart with (hpart | hpart) | hpart
  · exact fits_of_mem_partsOf (by decide) h.tails hpart
  · obtain ⟨data, hdata, rfl⟩ := mem_map.mp hpart
    exact ⟨show previousWalHeadType < 256 by decide, show 0 < 256 by decide,
      h.previous data (Option.mem_toList.mp hdata)⟩
  · exact fits_of_mem_partsOf (by decide) h.heads hpart

end WalPartFile

end RoundTrip

end WalG.Delta
