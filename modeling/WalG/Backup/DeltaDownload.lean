import WalG.Backup.DeltaMap
import WalG.Wal.SegmentName

/-! # Downloading the delta map of a range of log positions

The changed blocks come from delta files, one for each group of sixteen segments, and from the
segments behind the last whole group, which are parsed with the parser saved in the last delta file.
-/
namespace WalG.Backup
open Foundation PageFile Wal List

def walFileInDelta : ℕ := 16

def deltaFilenameSuffix : Text := "_delta".toList

def newDeltaNoFromWalSegmentNo (walSegmentNo : ℕ) : ℕ := walSegmentNo - walSegmentNo % walFileInDelta

def newDeltaNoFromLsn (w : WalSize) (lsn : ℕ) : ℕ := newDeltaNoFromWalSegmentNo (newWalSegmentNo w lsn)

/-- The number of the group before, by unsigned 64-bit subtraction. -/
def deltaPrevious (deltaNo : ℕ) : ℕ :=
  if walFileInDelta ≤ deltaNo then deltaNo - walFileInDelta else deltaNo + 2 ^ 64 - walFileInDelta

def toDeltaFilename (walFilename : Text) : Text := walFilename ++ deltaFilenameSuffix

def deltaFilename (w : WalSize) (timeline deltaNo : ℕ) : Text :=
  toDeltaFilename (formatWALFileName w timeline deltaNo)

def getDeltaFilenameFor (w : WalSize) (walFilename : Text) : Option Text :=
  (parseWALFilename w walFilename).map fun (timeline, logSegNo) =>
    toDeltaFilename (formatWALFileName w timeline (logSegNo - logSegNo % walFileInDelta))

structure DeltaFile (Parser : Type) where
  locations : List BlockLocation
  walParser : Parser

/-- The storage folder: loading a delta file, and downloading a segment and extracting
its locations with a parser, which moves on. -/
structure DeltaFolder (Parser ε : Type) where
  getDeltaFile : Text → Except ε (DeltaFile Parser)
  extractLocations : Text → Parser → Except ε (List BlockLocation × Parser)

/-- The step at which a download failed. -/
inductive DownloadError (ε : Type) where
  | deltaFiles (cause : ε)
  | lastDeltaFile (cause : ε)
  | walSegments (cause : ε)

theorem forall₂_concat_left {α β : Type} {R : α → β → Prop} {as : List α} {a : α} {bs : List β}
    (h : Forall₂ R (as ++ [a]) bs) : ∃ bs' b, bs = bs' ++ [b] ∧ Forall₂ R as bs' ∧ R a b := by
  induction as generalizing bs with
  | nil =>
    cases h with
    | cons hab hnil =>
      cases hnil
      exact ⟨[], _, rfl, .nil, hab⟩
  | cons c as ih =>
    cases h with
    | cons hcb hrest =>
      obtain ⟨bs', b, rfl, hbs, hab⟩ := ih hrest
      exact ⟨_ :: bs', b, rfl, .cons hcb hbs, hab⟩

section Download

variable {Parser ε : Type} (w : WalSize) (folder : DeltaFolder Parser ε) (timeline : ℕ)

def getLocationsFromDeltas (first last : ℕ) (deltaMap : PagedFileDeltaMap) : Except ε PagedFileDeltaMap :=
  if first < last then
    match folder.getDeltaFile (deltaFilename w timeline first) with
    | .error e => .error e
    | .ok deltaFile =>
      getLocationsFromDeltas (first + walFileInDelta) last (addLocationsToDelta deltaMap deltaFile.locations)
  else .ok deltaMap
termination_by last - first
decreasing_by
  rw [walFileInDelta]
  omega

def getLocationsFromWals (first last : ℕ) (walParser : Parser) (deltaMap : PagedFileDeltaMap) :
    Except ε PagedFileDeltaMap :=
  if first < last then
    match folder.extractLocations (formatWALFileName w timeline first) walParser with
    | .error e => .error e
    | .ok (locations, walParser') =>
      getLocationsFromWals (first + 1) last walParser' (addLocationsToDelta deltaMap locations)
  else .ok deltaMap
termination_by last - first

def getDeltaRange (firstUsedLsn firstNotUsedLsn : ℕ) : ℕ × ℕ :=
  (newDeltaNoFromLsn w firstUsedLsn, newDeltaNoFromLsn w firstNotUsedLsn)

def getWalSegmentRange (firstNotUsedDeltaNo firstNotUsedLsn : ℕ) : ℕ × ℕ :=
  (firstNotUsedDeltaNo, newWalSegmentNo w (lsnPred firstNotUsedLsn) + 1)

/-- The last delta file and the segments behind it, after the delta files before. -/
def getLastLocations (firstNotUsedDeltaNo firstNotUsedLSN : ℕ) (deltaMap : PagedFileDeltaMap) :
    Except (DownloadError ε) PagedFileDeltaMap :=
  match folder.getDeltaFile (deltaFilename w timeline (deltaPrevious firstNotUsedDeltaNo)) with
  | .error e => .error (.lastDeltaFile e)
  | .ok lastDeltaFile =>
    let range := getWalSegmentRange w firstNotUsedDeltaNo firstNotUsedLSN
    (getLocationsFromWals w folder timeline range.1 range.2 lastDeltaFile.walParser
      (addLocationsToDelta deltaMap lastDeltaFile.locations)).mapError .walSegments

def getDeltaMap (firstUsedLSN firstNotUsedLSN : ℕ) : Except (DownloadError ε) PagedFileDeltaMap :=
  let range := getDeltaRange w firstUsedLSN firstNotUsedLSN
  match getLocationsFromDeltas w folder timeline range.1 (deltaPrevious range.2) newPagedFileDeltaMap with
  | .error e => .error (.deltaFiles e)
  | .ok deltaMap => getLastLocations w folder timeline range.2 firstNotUsedLSN deltaMap

/-- Parsing the segments one after the other yields these locations. -/
inductive Extracts : Parser → List ℕ → List BlockLocation → Prop
  | nil (walParser : Parser) : Extracts walParser [] []
  | cons {walParser walParser' : Parser} {no : ℕ} {nos : List ℕ} {locations rest : List BlockLocation}
    (h : folder.extractLocations (formatWALFileName w timeline no) walParser = .ok (locations, walParser'))
    (hrest : Extracts walParser' nos rest) : Extracts walParser (no :: nos) (locations ++ rest)

/-- The delta map is made of the delta files of the groups and of the segments, parsed
from the state saved in the last of these files. -/
def DownloadedFrom (groups segments : List ℕ) (deltaMap : PagedFileDeltaMap) : Prop :=
  ∃ files last locations,
    Forall₂ (fun no file => folder.getDeltaFile (deltaFilename w timeline no) = .ok file) groups files ∧
    files.getLast? = some last ∧ Extracts w folder timeline last.walParser segments locations ∧
    deltaMap = addLocationsToDelta newPagedFileDeltaMap (files.flatMap DeltaFile.locations ++ locations)

/-- The segments covered by the delta files of the groups. -/
def coveredBy (groups : List ℕ) : List ℕ := groups.flatMap fun no => range' no walFileInDelta

theorem addLocationsToDelta_append (deltaMap : PagedFileDeltaMap) (a b : List BlockLocation) :
    addLocationsToDelta deltaMap (a ++ b) = addLocationsToDelta (addLocationsToDelta deltaMap a) b :=
  foldl_append

theorem getLocationsFromDeltas_ok_iff (first n : ℕ) (deltaMap deltaMap' : PagedFileDeltaMap) :
    getLocationsFromDeltas w folder timeline first (first + walFileInDelta * n) deltaMap = .ok deltaMap' ↔
      ∃ files,
        Forall₂ (fun no file => folder.getDeltaFile (deltaFilename w timeline no) = .ok file)
          (range' first n walFileInDelta) files ∧
        deltaMap' = addLocationsToDelta deltaMap (files.flatMap DeltaFile.locations) := by
  induction n generalizing first deltaMap with
  | zero =>
    rw [getLocationsFromDeltas, if_neg (by omega), range'_zero]
    constructor
    · rintro ⟨⟩
      exact ⟨[], .nil, rfl⟩
    · rintro ⟨files, hfiles, rfl⟩
      cases hfiles
      rfl
  | succ n ih =>
    have hlast : first + walFileInDelta * (n + 1) = first + walFileInDelta + walFileInDelta * n := by ring
    rw [getLocationsFromDeltas, if_pos (by rw [walFileInDelta]; omega), range'_succ]
    cases hfile : folder.getDeltaFile (deltaFilename w timeline first) with
    | error e =>
      constructor
      · rintro ⟨⟩
      · rintro ⟨files, hfiles, -⟩
        cases hfiles with
        | cons h _ => cases hfile.symm.trans h
    | ok file =>
      simp only [hlast]
      rw [ih]
      constructor
      · rintro ⟨files, hfiles, rfl⟩
        exact ⟨file :: files, .cons hfile hfiles, by
          rw [flatMap_cons, addLocationsToDelta_append]⟩
      · rintro ⟨files, hfiles, rfl⟩
        cases hfiles with
        | cons h hfiles =>
          cases hfile.symm.trans h
          exact ⟨_, hfiles, by rw [flatMap_cons, addLocationsToDelta_append]⟩

theorem getLocationsFromWals_ok_iff (first n : ℕ) (walParser : Parser) (deltaMap deltaMap' : PagedFileDeltaMap) :
    getLocationsFromWals w folder timeline first (first + n) walParser deltaMap = .ok deltaMap' ↔
      ∃ locations, Extracts w folder timeline walParser (range' first n) locations ∧
        deltaMap' = addLocationsToDelta deltaMap locations := by
  induction n generalizing first walParser deltaMap with
  | zero =>
    rw [getLocationsFromWals, if_neg (by omega), range'_zero]
    constructor
    · rintro ⟨⟩
      exact ⟨[], .nil walParser, rfl⟩
    · rintro ⟨locations, h, rfl⟩
      cases h
      rfl
  | succ n ih =>
    rw [getLocationsFromWals, if_pos (by omega), range'_succ]
    cases hwal : folder.extractLocations (formatWALFileName w timeline first) walParser with
    | error e =>
      constructor
      · rintro ⟨⟩
      · rintro ⟨locations, h, -⟩
        cases h with
        | cons h _ => cases hwal.symm.trans h
    | ok extracted =>
      simp only [Nat.add_comm n 1, ← Nat.add_assoc]
      rw [ih]
      constructor
      · rintro ⟨locations, h, rfl⟩
        exact ⟨_, .cons hwal h, by rw [addLocationsToDelta_append]⟩
      · rintro ⟨locations, h, rfl⟩
        cases h with
        | cons h hrest =>
          cases hwal.symm.trans h
          exact ⟨_, hrest, by rw [addLocationsToDelta_append]⟩

theorem deltaPrevious_mul (j : ℕ) : deltaPrevious (walFileInDelta * (j + 1)) = walFileInDelta * j := by
  rw [deltaPrevious, if_pos (Nat.le_mul_of_pos_right _ (Nat.succ_pos j)), Nat.mul_succ, Nat.add_sub_cancel]

theorem getLastLocations_ok_iff {firstNotUsedLSN j m : ℕ}
    (hm : newWalSegmentNo w (lsnPred firstNotUsedLSN) + 1 = walFileInDelta * (j + 1) + m)
    (deltaMap deltaMap' : PagedFileDeltaMap) :
    getLastLocations w folder timeline (walFileInDelta * (j + 1)) firstNotUsedLSN deltaMap = .ok deltaMap' ↔
      ∃ last locations, folder.getDeltaFile (deltaFilename w timeline (walFileInDelta * j)) = .ok last ∧
        Extracts w folder timeline last.walParser (range' (walFileInDelta * (j + 1)) m) locations ∧
        deltaMap' = addLocationsToDelta (addLocationsToDelta deltaMap last.locations) locations := by
  rw [getLastLocations, deltaPrevious_mul, getWalSegmentRange, hm]
  cases hfile : folder.getDeltaFile (deltaFilename w timeline (walFileInDelta * j)) with
  | error e =>
    constructor
    · rintro ⟨⟩
    · rintro ⟨_, _, ⟨⟩, _⟩
  | ok last =>
    have hwals := getLocationsFromWals_ok_iff w folder timeline (walFileInDelta * (j + 1)) m last.walParser
      (addLocationsToDelta deltaMap last.locations) deltaMap'
    constructor
    · intro h
      cases hresult : getLocationsFromWals w folder timeline (walFileInDelta * (j + 1))
          (walFileInDelta * (j + 1) + m) last.walParser (addLocationsToDelta deltaMap last.locations) with
      | error e =>
        simp only [hresult] at h
        cases h
      | ok result =>
        simp only [hresult] at h
        cases h
        obtain ⟨locations, hextracts, hmap⟩ := hwals.mp hresult
        exact ⟨last, locations, rfl, hextracts, hmap⟩
    · rintro ⟨last', locations, hlast, hextracts, hmap⟩
      cases hlast
      simp only [hwals.mpr ⟨locations, hextracts, hmap⟩]
      rfl

/-- The download in terms of group indices: `i` is the group of the first position, `j` the
group before the one of the end. -/
theorem getDeltaMap_ok_iff {firstUsedLSN firstNotUsedLSN i j m : ℕ}
    (hi : newDeltaNoFromLsn w firstUsedLSN = walFileInDelta * i)
    (hj : newDeltaNoFromLsn w firstNotUsedLSN = walFileInDelta * (j + 1))
    (hm : newWalSegmentNo w (lsnPred firstNotUsedLSN) + 1 = walFileInDelta * (j + 1) + m)
    (deltaMap : PagedFileDeltaMap) :
    getDeltaMap w folder timeline firstUsedLSN firstNotUsedLSN = .ok deltaMap ↔
      DownloadedFrom w folder timeline
        (range' (walFileInDelta * min i j) (j - min i j) walFileInDelta ++ [walFileInDelta * j])
        (range' (walFileInDelta * (j + 1)) m) deltaMap := by
  have hloop : getLocationsFromDeltas w folder timeline (walFileInDelta * i) (walFileInDelta * j) =
      getLocationsFromDeltas w folder timeline (walFileInDelta * min i j)
        (walFileInDelta * min i j + walFileInDelta * (j - min i j)) := by
    rw [← Nat.mul_add, Nat.add_sub_cancel' (Nat.min_le_right i j)]
    rcases Nat.le_total i j with hij | hij
    · rw [Nat.min_eq_left hij]
    · have hle : ¬ walFileInDelta * i < walFileInDelta * j := not_lt.mpr (Nat.mul_le_mul_left _ hij)
      funext start
      rw [Nat.min_eq_right hij, getLocationsFromDeltas, if_neg hle, getLocationsFromDeltas, if_neg (lt_irrefl _)]
  have hdeltas := getLocationsFromDeltas_ok_iff w folder timeline (walFileInDelta * min i j) (j - min i j)
    newPagedFileDeltaMap
  rw [getDeltaMap, getDeltaRange, hi, hj, deltaPrevious_mul, hloop]
  constructor
  · intro h
    split at h
    · cases h
    · rename_i deltas hresult
      obtain ⟨files, hfiles, rfl⟩ := (hdeltas deltas).mp hresult
      obtain ⟨last, locations, hfile, hextracts, rfl⟩ :=
        (getLastLocations_ok_iff w folder timeline hm _ deltaMap).mp h
      refine ⟨files ++ [last], last, locations, rel_append hfiles (.cons hfile .nil), getLast?_concat, hextracts, ?_⟩
      rw [flatMap_append, addLocationsToDelta_append, addLocationsToDelta_append, flatMap_singleton]
  · rintro ⟨files, last, locations, hfiles, hgetLast, hextracts, rfl⟩
    obtain ⟨files, file, rfl, hfiles, hfile⟩ := forall₂_concat_left hfiles
    obtain rfl := Option.some.inj (getLast?_concat.symm.trans hgetLast)
    rw [(hdeltas _).mpr ⟨files, hfiles, rfl⟩]
    refine (getLastLocations_ok_iff w folder timeline hm _ _).mpr ⟨file, locations, hfile, hextracts, ?_⟩
    rw [flatMap_append, addLocationsToDelta_append, addLocationsToDelta_append, flatMap_singleton]

end Download

/-- Neighbouring groups cover one range of segments. -/
theorem coveredBy_range' (first n : ℕ) :
    coveredBy (range' first n walFileInDelta) = range' first (walFileInDelta * n) := by
  induction n generalizing first with
  | zero => rfl
  | succ n ih =>
    rw [range'_succ, coveredBy, flatMap_cons]
    change _ ++ coveredBy _ = _
    rw [ih, range'_append_1, Nat.mul_succ, Nat.add_comm]

theorem newDeltaNoFromWalSegmentNo_eq (no : ℕ) :
    newDeltaNoFromWalSegmentNo no = walFileInDelta * (no / walFileInDelta) := by
  rw [newDeltaNoFromWalSegmentNo, walFileInDelta]
  omega

theorem lsnPred_eq {lsn : ℕ} (hpos : 0 < lsn) (hlt : lsn < 2 ^ 64) : lsnPred lsn = lsn - 1 := by
  have hsplit : lsn + (2 ^ 64 - 1) = lsn - 1 + 2 ^ 64 := by omega
  rw [lsnPred, hsplit, Nat.add_mod_right, Nat.mod_eq_of_lt (by omega)]

theorem newWalSegmentNo_mono (w : WalSize) {a b : ℕ} (h : a ≤ b) : newWalSegmentNo w a ≤ newWalSegmentNo w b :=
  Nat.div_le_div_right h

theorem newWalSegmentNo_le_pred (w : WalSize) (lsn : ℕ) : newWalSegmentNo w lsn ≤ newWalSegmentNo w (lsn - 1) + 1 := by
  have hpos := walSegmentSize_pos w
  rw [newWalSegmentNo, newWalSegmentNo, ← Nat.add_div_right _ hpos]
  exact Nat.div_le_div_right (by omega)

theorem getDeltaFilenameFor_filename (w : WalSize) (s : WalSegment w) :
    getDeltaFilenameFor w (formatWALFileName w s.timeline s.no) =
      some (deltaFilename w s.timeline (newDeltaNoFromWalSegmentNo s.no)) := by
  have hparse := s.parseWALFilename_filename
  rw [WalSegment.filename] at hparse
  rw [getDeltaFilenameFor, hparse]
  rfl

/-- The files that are read cover the requested positions: the segments of the delta files
and the parsed segments are one range, it has every segment of a position that is used and
none behind the last of them, parsing goes on right behind the last delta file, and each
delta file has the name that belongs to the segments of its group. -/
theorem getDeltaMap_covers {Parser ε : Type} (w : WalSize) (folder : DeltaFolder Parser ε)
    (timeline firstUsedLSN firstNotUsedLSN : ℕ) (htimeline : timeline < 2 ^ 32)
    (hle : firstUsedLSN ≤ firstNotUsedLSN) (hlt : firstNotUsedLSN < 2 ^ 64)
    (hpos : 0 < newDeltaNoFromLsn w firstNotUsedLSN) :
    ∃ groups segments,
      (∀ deltaMap, getDeltaMap w folder timeline firstUsedLSN firstNotUsedLSN = .ok deltaMap ↔
        DownloadedFrom w folder timeline groups segments deltaMap) ∧
      (∃ first n, coveredBy groups ++ segments = range' first n) ∧
      (∀ lsn, firstUsedLSN ≤ lsn → lsn < firstNotUsedLSN → newWalSegmentNo w lsn ∈ coveredBy groups ++ segments) ∧
      (∀ no ∈ coveredBy groups ++ segments, no ≤ newWalSegmentNo w (firstNotUsedLSN - 1)) ∧
      (∃ last, groups.getLast? = some last ∧ ∀ no ∈ segments.head?, no = last + walFileInDelta) ∧
      ∀ group ∈ groups, ∀ no ∈ range' group walFileInDelta,
        getDeltaFilenameFor w (formatWALFileName w timeline no) = some (deltaFilename w timeline group) := by
  have hdelta : ∀ lsn, newDeltaNoFromLsn w lsn = walFileInDelta * (newWalSegmentNo w lsn / walFileInDelta) :=
    fun lsn => newDeltaNoFromWalSegmentNo_eq (newWalSegmentNo w lsn)
  obtain ⟨i, hi⟩ : ∃ i, newWalSegmentNo w firstUsedLSN / walFileInDelta = i := ⟨_, rfl⟩
  obtain ⟨j, hj⟩ : ∃ j, newWalSegmentNo w firstNotUsedLSN / walFileInDelta = j + 1 := by
    rw [hdelta] at hpos
    exact Nat.exists_eq_succ_of_ne_zero (Nat.pos_of_mul_pos_left hpos).ne'
  have hend : walFileInDelta * (j + 1) ≤ newWalSegmentNo w (firstNotUsedLSN - 1) + 1 := by
    rw [← hj]
    exact (Nat.mul_div_le _ _).trans (newWalSegmentNo_le_pred w firstNotUsedLSN)
  obtain ⟨m, hm⟩ := Nat.exists_eq_add_of_le hend
  have hlsn : 0 < firstNotUsedLSN := by
    apply Nat.pos_of_ne_zero
    rintro rfl
    rw [newWalSegmentNo, Nat.zero_div, Nat.zero_div] at hj
    cases hj
  have hgroups : range' (walFileInDelta * min i j) (j - min i j) walFileInDelta ++ [walFileInDelta * j] =
      range' (walFileInDelta * min i j) (j - min i j + 1) walFileInDelta := by
    rw [range'_concat, ← Nat.mul_add, Nat.add_sub_cancel' (Nat.min_le_right i j)]
  have hcovered : coveredBy (range' (walFileInDelta * min i j) (j - min i j) walFileInDelta ++
      [walFileInDelta * j]) ++ range' (walFileInDelta * (j + 1)) m =
      range' (walFileInDelta * min i j) (walFileInDelta * (j - min i j + 1) + m) := by
    have hjoin : walFileInDelta * (j + 1) = walFileInDelta * min i j + walFileInDelta * (j - min i j + 1) := by
      rw [← Nat.mul_add]
      congr 1
      omega
    rw [hgroups, coveredBy_range', hjoin, range'_append_1]
  have hlast : walFileInDelta * min i j + (walFileInDelta * (j - min i j + 1) + m) =
      newWalSegmentNo w (firstNotUsedLSN - 1) + 1 := by
    rw [hm, ← Nat.add_assoc, ← Nat.mul_add]
    congr 2
    omega
  refine ⟨_, _, getDeltaMap_ok_iff w folder timeline ((hdelta _).trans (congrArg _ hi))
    ((hdelta _).trans (congrArg _ hj)) (by rw [lsnPred_eq hlsn hlt, hm]), ⟨_, _, hcovered⟩, ?_, ?_, ?_, ?_⟩
  · intro lsn hfirst hnot
    have hlow : walFileInDelta * min i j ≤ newWalSegmentNo w lsn := calc
      walFileInDelta * min i j ≤ walFileInDelta * i := Nat.mul_le_mul_left _ (Nat.min_le_left i j)
      _ ≤ newWalSegmentNo w firstUsedLSN := hi ▸ Nat.mul_div_le _ _
      _ ≤ newWalSegmentNo w lsn := newWalSegmentNo_mono w hfirst
    have hhigh := newWalSegmentNo_mono w (show lsn ≤ firstNotUsedLSN - 1 by omega)
    rw [hcovered, mem_range'_1]
    omega
  · intro no hno
    rw [hcovered, mem_range'_1] at hno
    omega
  · refine ⟨_, getLast?_concat, ?_⟩
    intro no hno
    cases m with
    | zero => cases hno
    | succ m =>
      rw [range'_succ] at hno
      cases hno
      exact Nat.mul_succ _ _
  · intro group hgroup no hno
    rw [hgroups, mem_range'] at hgroup
    obtain ⟨k, hk, rfl⟩ := hgroup
    rw [← Nat.mul_add, mem_range'_1] at hno
    have hno_le : no ≤ newWalSegmentNo w (firstNotUsedLSN - 1) := by
      have hk' : walFileInDelta * (min i j + k + 1) ≤ walFileInDelta * (j + 1) :=
        Nat.mul_le_mul_left _ (by omega)
      rw [Nat.mul_succ] at hk'
      omega
    have hname := getDeltaFilenameFor_filename w ⟨timeline, no, htimeline,
      (Nat.div_le_div_right hno_le).trans_lt (newWalSegmentNo_div_lt w (by omega))⟩
    have hquot : no / walFileInDelta = min i j + k := by
      rw [Nat.div_eq_iff (by decide), Nat.mul_comm]
      omega
    rw [newDeltaNoFromWalSegmentNo_eq, hquot] at hname
    rw [← Nat.mul_add]
    exact hname

/-- A folder in which every file is there and no block changed. -/
def unchangedFolder : DeltaFolder Unit Unit where
  getDeltaFile _ := .ok ⟨[], ()⟩
  extractLocations _ _ := .ok ([], ())

/-- Positions from the fifth segment to the inside of the 34th, of sixteen megabytes each. -/
theorem getDeltaMap_covers_unchanged : ∃ groups segments,
    (∀ deltaMap, getDeltaMap WalSize.default unchangedFolder 1 (4 * 2 ^ 24) (33 * 2 ^ 24 + 5) = .ok deltaMap ↔
      DownloadedFrom WalSize.default unchangedFolder 1 groups segments deltaMap) ∧
    ∃ first n, coveredBy groups ++ segments = range' first n := by
  obtain ⟨groups, segments, hiff, hrange, -⟩ := getDeltaMap_covers WalSize.default unchangedFolder 1
    (4 * 2 ^ 24) (33 * 2 ^ 24 + 5) (by decide) (by decide) (by decide) (by decide)
  exact ⟨groups, segments, hiff, hrange⟩

end WalG.Backup
