import WalG.Delta.PartFile

/-! # Delta files

A delta file lists block locations up to a terminal one that names no block, and ends with the state
of the parser.
-/
namespace WalG.Delta
open Foundation PageFile Backup XLog List

abbrev DeltaFile := Backup.DeltaFile WalParser

def terminalLocation : BlockLocation := ⟨⟨0, 0, 0⟩, 0⟩

def writeLocation (location : BlockLocation) : Bytes :=
  leBytes 4 location.relationFileNode.spcNode.toNat ++ leBytes 4 location.relationFileNode.dbNode.toNat ++
    leBytes 4 location.relationFileNode.relNode.toNat ++ leBytes 4 location.blockNo.toNat

def writeLocationsTo (locations : List BlockLocation) : Bytes := locations.flatMap writeLocation

def readNextLocation (r : Reader) : Except ReadError (BlockLocation × Reader) := do
  let (spcNode, r) ← r.readLE 4
  let (dbNode, r) ← r.readLE 4
  let (relNode, r) ← r.readLE 4
  let (blockNo, r) ← r.readLE 4
  .ok (⟨⟨.ofNat spcNode, .ofNat dbNode, .ofNat relNode⟩, .ofNat blockNo⟩, r)

theorem readNextLocation_length {r r' : Reader} {location : BlockLocation}
    (h : readNextLocation r = .ok (location, r')) : r'.data.length < r.data.length := by
  obtain ⟨⟨spcNode, r₁⟩, h₁, h⟩ := bind_ok h
  obtain ⟨⟨dbNode, r₂⟩, h₂, h⟩ := bind_ok h
  obtain ⟨⟨relNode, r₃⟩, h₃, h⟩ := bind_ok h
  obtain ⟨⟨blockNo, r₄⟩, h₄, h⟩ := bind_ok h
  obtain ⟨-, rfl⟩ := Prod.mk.inj (Except.ok.inj h)
  have hlen₁ := readLE_data_length h₁
  have hlen₂ : r₁.data.length = 4 + r₂.data.length := readLE_data_length h₂
  have hlen₃ : r₂.data.length = 4 + r₃.data.length := readLE_data_length h₃
  have hlen₄ : r₃.data.length = 4 + r₄.data.length := readLE_data_length h₄
  omega

/-- Locations are read up to the terminal one or to the end of the file. -/
def readLocationsFrom (r : Reader) : Except ReadError (List BlockLocation × Reader) :=
  match _hread : readNextLocation r with
  | .error .eof => .ok ([], ⟨[], r.ending⟩)
  | .error e => .error e
  | .ok (location, r') =>
    if location = terminalLocation then .ok ([], r')
    else
      match readLocationsFrom r' with
      | .error e => .error e
      | .ok (locations, r'') => .ok (location :: locations, r'')
termination_by r.data.length
decreasing_by exact readNextLocation_length _hread

def newDeltaFile (walParser : WalParser) : DeltaFile := ⟨[], walParser⟩

/-- What is written to the file, and whether that is all of it. -/
def saveDeltaFile (deltaFile : DeltaFile) : Bytes × Option ParseError :=
  match deltaFile.walParser.save with
  | .error e => (writeLocationsTo (deltaFile.locations ++ [terminalLocation]), some e)
  | .ok data => (writeLocationsTo (deltaFile.locations ++ [terminalLocation]) ++ data, none)

def loadDeltaFile (data : Bytes) : Except LoadError DeltaFile :=
  match readLocationsFrom (.ofBytes data) with
  | .error e => .error (.read e)
  | .ok (locations, r) =>
    match loadWalParser r with
    | .error e => .error (.parser e)
    | .ok walParser => .ok ⟨locations, walParser⟩

section RoundTrip

theorem readNextLocation_write (location : BlockLocation) (rest : Bytes) :
    readNextLocation (.ofBytes (writeLocation location ++ rest)) = .ok (location, .ofBytes rest) := by
  have hmod (n : UInt32) : n.toNat % 256 ^ 4 = n.toNat := Nat.mod_eq_of_lt n.toNat_lt
  simp only [readNextLocation, writeLocation, Reader.ofBytes, append_assoc, Reader.readLE_append, ok_bind, hmod,
    UInt32.ofNat_toNat]

theorem readLocationsFrom_write {locations : List BlockLocation} (h : terminalLocation ∉ locations) (rest : Bytes) :
    readLocationsFrom (.ofBytes (writeLocationsTo (locations ++ [terminalLocation]) ++ rest)) =
      .ok (locations, .ofBytes rest) := by
  induction locations with
  | nil =>
    have hread := readNextLocation_write terminalLocation rest
    rw [nil_append, writeLocationsTo, flatMap_singleton, readLocationsFrom]
    split
    · rename_i heq
      cases hread.symm.trans heq
    · rename_i heq
      cases hread.symm.trans heq
    · rename_i heq
      cases hread.symm.trans heq
      rw [if_pos rfl]
  | cons location locations ih =>
    have hread := readNextLocation_write location (writeLocationsTo (locations ++ [terminalLocation]) ++ rest)
    have hne : location ≠ terminalLocation := fun heq => h (heq ▸ mem_cons_self)
    rw [writeLocationsTo, cons_append, flatMap_cons, append_assoc, ← writeLocationsTo, readLocationsFrom]
    split
    · rename_i heq
      cases hread.symm.trans heq
    · rename_i heq
      cases hread.symm.trans heq
    · rename_i heq
      cases hread.symm.trans heq
      rw [if_neg hne, ih fun hmem => h (mem_cons_of_mem _ hmem)]

/-- A parser is read back as one that has the beginning of its record if it holds any byte. -/
theorem loadWalParser_save {walParser : WalParser} {data : Bytes} (h : walParser.save = .ok data)
    (hlen : walParser.currentRecordData.length < 2 ^ 32) :
    loadWalParser (.ofBytes data) = .ok (.setCurrentRecordData walParser.currentRecordData) := by
  have hmod : walParser.currentRecordData.length % 256 ^ 4 = walParser.currentRecordData.length :=
    Nat.mod_eq_of_lt hlen
  unfold WalParser.save at h
  split_ifs at h
  cases h
  have hfull := @Reader.readFull_append _ walParser.currentRecordData [] rfl .eof
  rw [append_nil] at hfull
  simp only [loadWalParser, XLog.readField, Reader.ofBytes, Reader.readLE_append, Except.mapError, ok_bind, hmod, hfull]
  rfl

/-- A delta file is read back with its locations, unless one of them is the terminal one, and with its parser as that
is read back. -/
theorem loadDeltaFile_of_save {deltaFile : DeltaFile} {parserData : Bytes} {walParser : WalParser}
    (hsave : deltaFile.walParser.save = .ok parserData) (hload : loadWalParser (.ofBytes parserData) = .ok walParser)
    (hterminal : terminalLocation ∉ deltaFile.locations) :
    ∃ data, saveDeltaFile deltaFile = (data, none) ∧ loadDeltaFile data = .ok ⟨deltaFile.locations, walParser⟩ := by
  refine ⟨writeLocationsTo (deltaFile.locations ++ [terminalLocation]) ++ parserData, by rw [saveDeltaFile, hsave], ?_⟩
  rw [loadDeltaFile, readLocationsFrom_write hterminal]
  dsimp only
  rw [hload]

theorem loadDeltaFile_save {deltaFile : DeltaFile} {data : Bytes} (h : saveDeltaFile deltaFile = (data, none))
    (hterminal : terminalLocation ∉ deltaFile.locations)
    (hlen : deltaFile.walParser.currentRecordData.length < 2 ^ 32) :
    loadDeltaFile data =
      .ok ⟨deltaFile.locations, .setCurrentRecordData deltaFile.walParser.currentRecordData⟩ := by
  cases hsave : deltaFile.walParser.save with
  | error e =>
    rw [saveDeltaFile, hsave] at h
    cases h
  | ok parserData =>
    obtain ⟨data', hdata', hload⟩ := loadDeltaFile_of_save hsave (loadWalParser_save hsave hlen) hterminal
    rw [h] at hdata'
    rw [(Prod.mk.inj hdata').1, hload]

end RoundTrip

end WalG.Delta
