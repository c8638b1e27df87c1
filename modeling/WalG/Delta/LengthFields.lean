import WalG.Delta.LocationFile

/-! # What the length fields of the saved files have room for

The length of a part, and that of the record in the parser, is saved in four bytes.
-/
namespace WalG.Delta
open Foundation PageFile Backup XLog List Function

theorem readLE_lt {r r' : Reader} {n value : ℕ} (h : r.readLE n = .ok (value, r')) : value < 256 ^ n :=
  (Reader.readLE_iff.mp h).1

theorem readFull_length {r r' : Reader} {n : ℕ} {bs : Bytes} (h : r.readFull n = .ok (bs, r')) : bs.length = n :=
  (Reader.readFull_iff.mp h).1

section PartFile

theorem loadWalPart_data_lt {r r' : Reader} {part : WalPart} (h : loadWalPart r = .ok (part, r')) :
    part.data.length < 2 ^ 32 := by
  obtain ⟨⟨dataType, r₁⟩, h₁, h⟩ := bind_ok h
  obtain ⟨⟨id, r₂⟩, h₂, h⟩ := bind_ok h
  obtain ⟨⟨dataLen, r₃⟩, h₃, h⟩ := bind_ok h
  obtain ⟨⟨data, r₄⟩, h₄, h⟩ := bind_ok h
  cases h
  rw [show (WalPart.mk dataType id data).data.length = dataLen from readFull_length h₄]
  exact readLE_lt h₃

namespace WalPartFile

theorem newWalPartFile_fits : newWalPartFile.Fits where
  tails := nofun
  previous := nofun
  heads := nofun

theorem update_lt {parts : Position → Option Bytes} (hparts : ∀ id data, parts id = some data → data.length < 2 ^ 32)
    {new : Bytes} (hnew : new.length < 2 ^ 32) (position id : Position) (data : Bytes)
    (h : update parts position (some new) id = some data) : data.length < 2 ^ 32 := by
  by_cases hid : id = position
  · subst hid
    rw [update_self] at h
    exact Option.some.inj h ▸ hnew
  · rw [update_of_ne hid] at h
    exact hparts id data h

theorem setPart_fits {partFile partFile' : WalPartFile} {part : WalPart} (h : partFile.Fits)
    (hpart : part.data.length < 2 ^ 32) (hset : partFile.setPart part = .ok partFile') : partFile'.Fits := by
  unfold setPart at hset
  split_ifs at hset
  · cases hset
    exact ⟨h.tails, fun data hdata => Option.some.inj hdata ▸ hpart, h.heads⟩
  · cases hset
    exact ⟨update_lt h.tails hpart _, h.previous, h.heads⟩
  · cases hset
    exact ⟨h.tails, h.previous, update_lt h.heads hpart _⟩
  · cases hset
    exact h

theorem loadParts_fits {r : Reader} {partFile partFile' : WalPartFile} (h : partFile.Fits)
    (hload : loadParts partFile r = .ok partFile') : partFile'.Fits := by
  induction hlen : r.data.length using Nat.strong_induction_on generalizing r partFile with
  | _ length ih =>
    rw [loadParts] at hload
    split at hload
    · cases hload
      exact h
    · cases hload
    · rename_i part r' hpart
      split at hload
      · cases hload
      · rename_i next hset
        exact ih _ (hlen ▸ loadWalPart_length hpart) (setPart_fits h (loadWalPart_data_lt hpart) hset) hload rfl

/-- A part file survives saving exactly when each of its parts fits its length field. -/
theorem loadPartFile_save_iff (partFile : WalPartFile) : loadPartFile partFile.save = .ok partFile ↔ partFile.Fits :=
  ⟨loadParts_fits newWalPartFile_fits, loadPartFile_save⟩

end WalPartFile

end PartFile

section DeltaFile

/-- The same bytes as the beginning of a record; without bytes there is no record. -/
def Equivalent (parser parser' : WalParser) : Prop :=
  parser.currentRecordData = parser'.currentRecordData ∧
    (parser.currentRecordData ≠ [] → parser.hasCurrentRecordBeginning = parser'.hasCurrentRecordBeginning)

theorem equivalent_setCurrentRecordData {parser : WalParser}
    (h : parser.currentRecordData = [] ∨ parser.hasCurrentRecordBeginning) :
    Equivalent (.setCurrentRecordData parser.currentRecordData) parser := by
  refine ⟨rfl, fun hne => ?_⟩
  rw [h.resolve_left hne]
  exact decide_eq_true (length_pos_iff.mpr hne)

theorem loadWalParser_data_lt {r : Reader} {parser : WalParser} (h : loadWalParser r = .ok parser) :
    parser.currentRecordData.length < 2 ^ 32 := by
  obtain ⟨⟨dataLen, r₁⟩, h₁, h⟩ := bind_ok h
  obtain ⟨⟨data, r₂⟩, h₂, h⟩ := bind_ok h
  cases h
  cases hread : r.readLE 4 with
  | error e =>
    rw [XLog.readField, hread] at h₁
    cases h₁
  | ok result =>
    rw [XLog.readField, hread] at h₁
    cases h₁
    cases hfull : r₁.readFull dataLen with
    | error e =>
      rw [hfull] at h₂
      cases h₂
    | ok result =>
      rw [hfull] at h₂
      cases h₂
      rw [show (WalParser.mk data (decide (0 < data.length))).currentRecordData.length = dataLen from
        readFull_length hfull]
      exact readLE_lt hread

/-- Saved and loaded, the delta file has the same locations in their order and an equivalent parser. -/
def SurvivesSaving (deltaFile : DeltaFile) : Prop :=
  ∃ data loaded, saveDeltaFile deltaFile = (data, none) ∧ loadDeltaFile data = .ok loaded ∧
    loaded.locations = deltaFile.locations ∧ Equivalent loaded.walParser deltaFile.walParser

theorem survivesSaving_iff {deltaFile : DeltaFile} (hterminal : terminalLocation ∉ deltaFile.locations)
    (hparser : deltaFile.walParser.currentRecordData = [] ∨ deltaFile.walParser.hasCurrentRecordBeginning) :
    SurvivesSaving deltaFile ↔ deltaFile.walParser.currentRecordData.length < 2 ^ 32 := by
  constructor
  · rintro ⟨data, loaded, -, hload, -, hsame, -⟩
    unfold loadDeltaFile at hload
    split at hload
    · cases hload
    · split at hload
      · cases hload
      · rename_i walParser hwalParser
        cases hload
        exact hsame ▸ loadWalParser_data_lt hwalParser
  · intro hlen
    have hsave : ∃ data, deltaFile.walParser.save = .ok data := by
      refine ⟨_, if_neg ?_⟩
      rintro ⟨hpos, hbeginning⟩
      exact hbeginning (hparser.resolve_left (length_pos_iff.mp hpos))
    obtain ⟨data, hsave⟩ := hsave
    have hdelta : saveDeltaFile deltaFile =
        (writeLocationsTo (deltaFile.locations ++ [terminalLocation]) ++ data, none) := by
      rw [saveDeltaFile, hsave]
    exact ⟨_, _, hdelta, loadDeltaFile_save hdelta hterminal hlen, rfl, equivalent_setCurrentRecordData hparser⟩

end DeltaFile

/-- The files of a group survive saving exactly when what they hold fits the length fields. -/
theorem saved_files_survive_iff {deltaFile : DeltaFile} (hterminal : terminalLocation ∉ deltaFile.locations)
    (hparser : deltaFile.walParser.currentRecordData = [] ∨ deltaFile.walParser.hasCurrentRecordBeginning)
    (partFile : WalPartFile) :
    (SurvivesSaving deltaFile ↔ deltaFile.walParser.currentRecordData.length < 2 ^ 32) ∧
      (loadPartFile partFile.save = .ok partFile ↔ partFile.Fits) :=
  ⟨survivesSaving_iff hterminal hparser, partFile.loadPartFile_save_iff⟩

/-- A delta file of two locations with a part of a record, and a part file of a tail, the previous head and a head. -/
theorem saved_files_survive_parts :
    let deltaFile : DeltaFile := ⟨[⟨⟨1663, 13000, 16384⟩, 5⟩, ⟨⟨1663, 13000, 16385⟩, 0⟩], ⟨[1, 2, 3], true⟩⟩
    let partFile : WalPartFile := ⟨update (fun _ => none) (3 : Fin 16) (some [1, 2]), some [7],
      update (fun _ => none) (15 : Fin 16) (some [8, 9])⟩
    SurvivesSaving deltaFile ∧ loadPartFile partFile.save = .ok partFile := by
  intro deltaFile partFile
  have hsurvive := @saved_files_survive_iff deltaFile (by decide) (.inr rfl) partFile
  have hfits : partFile.Fits :=
    ⟨WalPartFile.update_lt WalPartFile.newWalPartFile_fits.tails (by decide) _,
      fun data hdata => Option.some.inj hdata ▸ (by decide),
      WalPartFile.update_lt WalPartFile.newWalPartFile_fits.heads (by decide) _⟩
  exact ⟨hsurvive.1.mpr (by decide), hsurvive.2.mpr hfits⟩

/-- A head of `2 ^ 32` bytes is saved with the length zero. -/
theorem long_head_lost : ∃ partFile : WalPartFile,
    partFile.previousWalHead = some (replicate (2 ^ 32) 0) ∧ loadPartFile partFile.save ≠ .ok partFile := by
  refine ⟨⟨fun _ => none, some (replicate (2 ^ 32) 0), fun _ => none⟩, rfl, fun h => ?_⟩
  have hlen := ((WalPartFile.loadPartFile_save_iff _).mp h).previous _ rfl
  rw [length_replicate] at hlen
  exact lt_irrefl _ hlen

end WalG.Delta
