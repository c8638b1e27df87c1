import WalG.Delta.SegmentEffect
import WalG.Delta.Transparency

/-! # Recording a segment of a stream

A segment that a server wrote is recorded without an error.
-/
namespace WalG.Delta
open Foundation PageFile Backup XLog Wal DeltaFileManager List Function

variable {w : WalSize}

namespace WalPartFile

variable (p : WalPartFile) (id : Position)

def withHead (head : Bytes) : WalPartFile := { p with walHeads := update p.walHeads id (some head) }

def withTail (tail : Option Bytes) : WalPartFile :=
  match tail with
  | none => p
  | some tailData => { p with walTails := update p.walTails id (some tailData) }

def withPreviousHead (head : Bytes) : WalPartFile := { p with previousWalHead := some head }

@[simp] theorem walTails_withTail (tail : Option Bytes) (id' : Position) :
    (p.withTail id tail).walTails id' = if id' = id then tail.or (p.walTails id') else p.walTails id' := by
  cases tail with
  | none => simp [withTail]
  | some tailData => by_cases h : id' = id <;> simp [withTail, h]

@[simp] theorem previousWalHead_withTail (tail : Option Bytes) :
    (p.withTail id tail).previousWalHead = p.previousWalHead := by
  cases tail <;> rfl

@[simp] theorem walHeads_withTail (tail : Option Bytes) : (p.withTail id tail).walHeads = p.walHeads := by
  cases tail <;> rfl

@[simp] theorem walTails_withHead (head : Bytes) : (p.withHead id head).walTails = p.walTails := rfl

@[simp] theorem previousWalHead_withHead (head : Bytes) :
    (p.withHead id head).previousWalHead = p.previousWalHead := rfl

@[simp] theorem walHeads_withHead (head : Bytes) (id' : Position) :
    (p.withHead id head).walHeads id' = if id' = id then some head else p.walHeads id' :=
  update_apply _ _ _ _

end WalPartFile

section Close

variable {s : WalSegment w} {m m' : DeltaFileManager} {head : Bytes}

theorem saveNextWalHead_ok (h : m.saveNextWalHead w s.filename head = (none, m')) :
    ∃ m₁, m.updatePartFile (group s).name (·.withHead (position s) head) = .ok m₁ ∧
      if position s = lastPosition then
        m₁.updatePartFile (nextDeltaFilename w s.filename) (·.withPreviousHead head) = .ok m'
      else m' = m₁ := by
  rw [saveNextWalHead, getDeltaFilenameFor_filename, getPositionInDelta_filename] at h
  split at h
  · cases h
  · rename_i m₁ hupdate
    refine ⟨m₁, hupdate, ?_⟩
    split_ifs at h ⊢
    · dsimp only at h
      split at h
      · cases h
      · rename_i m₂ hnext
        rw [← (Prod.mk.inj h).2]
        exact hnext
    · exact (Prod.mk.inj h).2.symm

theorem exists_saveNextWalHead {p : WalPartFile} (hp : m.partFile (group s).name = .ok p) (head : Bytes)
    (hnext : position s = lastPosition → ∃ p', m.partFile (nextDeltaFilename w s.filename) = .ok p') :
    ∃ m', m.saveNextWalHead w s.filename head = (none, m') := by
  obtain ⟨m₁, hupdate, hsets⟩ := updatePartFile_of_view hp (·.withHead (position s) head)
  have hhead : m.updatePartFile (group s).name (fun p =>
      { p with walHeads := update p.walHeads (position s) (some head) }) = .ok m₁ := hupdate
  rw [saveNextWalHead, getDeltaFilenameFor_filename, getPositionInDelta_filename, Option.getD_some, hhead]
  dsimp only
  split_ifs with hposition
  · have hne : nextDeltaFilename w s.filename ≠ (group s).name := fun heq =>
      preceding_group_ne ((nextDeltaFilename_eq_iff s hposition (group s)).mp heq) rfl
    obtain ⟨p', hp'⟩ := hnext hposition
    rw [← partFile_congr hsets.dataFolder (hsets.get_other _ hne)] at hp'
    obtain ⟨m₂, hupdate', -⟩ := updatePartFile_of_view hp' (·.withPreviousHead head)
    have hprevious : m₁.updatePartFile ((getDeltaFilenameFor w ((getNextWalFilename w s.filename).getD [])).getD [])
        (fun p => { p with previousWalHead := some head }) = .ok m₂ := hupdate'
    rw [hprevious]
    exact ⟨m₂, rfl⟩
  · exact ⟨m₁, rfl⟩

theorem saveTail_of_view {p : WalPartFile} (h : m.partFile (group s).name = .ok p) (tail : Option Bytes) :
    ∃ m', m.saveTail w s.filename tail = .ok m' ∧ m'.partFile (group s).name = .ok (p.withTail (position s) tail) ∧
      (∀ name, name ≠ (group s).name → m'.partFiles.get name = m.partFiles.get name) ∧
      m'.deltaFileWriters = m.deltaFileWriters ∧ m'.dataFolder = m.dataFolder ∧
      m'.canceledDeltaFiles = m.canceledDeltaFiles := by
  cases tail with
  | none => exact ⟨m, rfl, h, fun _ _ => rfl, rfl, rfl, rfl⟩
  | some tailData =>
    obtain ⟨m', hupdate, hsets⟩ := updatePartFile_of_view h (·.withTail (position s) (some tailData))
    refine ⟨m', ?_, partFile_of_get hsets.get_self, hsets.get_other, hsets.deltaFileWriters, hsets.dataFolder,
      hsets.canceledDeltaFiles⟩
    rw [saveTail, savePreviousWalTail, getDeltaFilenameFor_filename, getPositionInDelta_filename]
    exact hupdate

end Close

variable (wal : ℕ → WalStream)

def tailOf (s : WalSegment w) : Option Bytes := (wal s.timeline).tail s.no

def headOf (s : WalSegment w) : Bytes := (wal s.timeline).head s.no

/-- The locations of the records that end in a segment besides the one that crosses into it. -/
def innerLocations (s : WalSegment w) : List BlockLocation :=
  extractBlockLocations (((wal s.timeline).inner s.no).map RawRecord.record)

/-- A segment is read to its end through the recording reader, without a recording error, and closed. -/
structure RecordsSegment (s : WalSegment w) (m m' : DeltaFileManager) : Prop where
  run : ∃ walFileReader reader m₁ reader' m₂,
    PieceReader.content walFileReader = ((wal s.timeline).segment s.no).pages.flatten ∧
    newWalDeltaRecordingReader w walFileReader s.filename m = .ok (reader, m₁) ∧
    WalDeltaRecordingReader.ReadsToEnd w reader m₁ reader' m₂ ∧
    m₂.canceledDeltaFiles = m.canceledDeltaFiles ∧ reader'.toSegmentRecorder.close w m₂ = (none, m')

namespace RecordsSegment

variable {wal} {s : WalSegment w} {m m' : DeltaFileManager} (h : RecordsSegment wal s m m')

include h

/-- The recording is that of the outputs of one parser that runs over the segment. -/
theorem outputs : ∃ m₁ outputs m₂, m.getBlockLocationConsumer (group s).name = .ok m₁ ∧
    Yields outputs (tailOf wal s) (((wal s.timeline).inner s.no).map RawRecord.record) ∧
    (outputs.foldl (SegmentRecorder.recordParsed w) (⟨newWalParser, s.filename, true⟩, m₁)).2 = m₂ ∧
    m₂.canceledDeltaFiles = m.canceledDeltaFiles ∧ m₂.saveNextWalHead w s.filename (headOf wal s) = (none, m') := by
  obtain ⟨walFileReader, reader, m₁, reader', m₂, hcontent, hopen, hread, hcanceled, hclose⟩ := h.run
  obtain ⟨outputs, parser, hparse, hhead, hyields, -⟩ := (wal s.timeline).parsePages_segment s.no
  rw [newWalDeltaRecordingReader, getDeltaFilenameFor_filename] at hopen
  dsimp only at hopen
  split at hopen
  · cases hopen
  · rename_i m₁' hconsumer
    obtain ⟨rfl, rfl⟩ := Prod.mk.inj (Except.ok.inj hopen)
    have hpages := hread.recordPages hcontent ((wal s.timeline).page_length s.no)
    rw [SegmentRecorder.recordPages_of_parsePages hparse] at hpages
    obtain ⟨hrecorder, hm₂⟩ := Prod.mk.inj hpages
    refine ⟨m₁', outputs, m₂, hconsumer, hyields, hm₂, hcanceled, ?_⟩
    rw [SegmentRecorder.close, ← hrecorder] at hclose
    rw [SegmentRecorder.foldl_recordParsed_walFilename, hhead] at hclose
    exact hclose

theorem own {p : WalPartFile} {d : DeltaFile}
    (hp : m.partFile (group s).name = .ok p) (hd : m.deltaFile (group s).name = .ok d) :
    m'.partFiles.get (group s).name =
        some ((p.withTail (position s) (tailOf wal s)).withHead (position s) (headOf wal s)) ∧
      m'.deltaFileWriters.get (group s).name = some ⟨d.locations ++ innerLocations wal s, d.walParser⟩ ∧
      m'.dataFolder = m.dataFolder := by
  obtain ⟨m₁, outputs, m₂, hopen, hyields, hm₂, -, hclose⟩ := h.outputs
  obtain ⟨d', hd', hget, -, hparts, hfolder, -⟩ := getBlockLocationConsumer_ok hopen
  cases hd.symm.trans hd'
  have hp₁ : m₁.partFile (group s).name = .ok p := (partFile_congr hfolder (by rw [hparts])).trans hp
  obtain ⟨m₁', hsave, hp₁', -, hdeltas, hfolder', -⟩ := saveTail_of_view hp₁ (tailOf wal s)
  rw [SegmentRecorder.foldl_recordParsed_yields hyields hsave, getDeltaFilenameFor_filename, Option.getD_some] at hm₂
  have happends : AppendsLocations (group s).name (innerLocations wal s) m₁' m₂ := hm₂ ▸ consume_appends m₁' _ _
  obtain ⟨m₃, hhead, hlast⟩ := saveNextWalHead_ok hclose
  obtain ⟨p₂, hp₂, hsets⟩ := updatePartFile_ok hhead
  rw [partFile_congr happends.dataFolder (by rw [happends.partFiles]), hp₁'] at hp₂
  cases hp₂
  have hget₃ : m₃.deltaFileWriters.get (group s).name = some ⟨d.locations ++ innerLocations wal s, d.walParser⟩ := by
    rw [hsets.deltaFileWriters, happends.get_self, hdeltas, hget]
    rfl
  have hfolder₃ : m₃.dataFolder = m.dataFolder := by rw [hsets.dataFolder, happends.dataFolder, hfolder', hfolder]
  split_ifs at hlast with hposition
  · -- the previous head of the next group is set in another file
    have hne : (group s).name ≠ nextDeltaFilename w s.filename := fun heq =>
      preceding_group_ne ((nextDeltaFilename_eq_iff s hposition (group s)).mp heq.symm) rfl
    obtain ⟨p₄, -, hsets'⟩ := updatePartFile_ok hlast
    rw [hsets'.get_other _ hne, hsets'.deltaFileWriters, hsets'.dataFolder]
    exact ⟨hsets.get_self, hget₃, hfolder₃⟩
  · rw [hlast]
    exact ⟨hsets.get_self, hget₃, hfolder₃⟩

/-- Up to its closing, a recording does not touch the files of another group. -/
theorem before_close {name : Text} (hne : name ≠ (group s).name) :
    ∃ m₁, SameAt name m m₁ ∧
      if position s = lastPosition then
        m₁.updatePartFile (nextDeltaFilename w s.filename) (·.withPreviousHead (headOf wal s)) = .ok m'
      else m' = m₁ := by
  obtain ⟨m₁, outputs, m₂, hopen, -, hm₂, -, hclose⟩ := h.outputs
  obtain ⟨d, -, -, hother, hparts, hfolder, -⟩ := getBlockLocationConsumer_ok hopen
  obtain ⟨m₃, hhead, hlast⟩ := saveNextWalHead_ok hclose
  obtain ⟨p, -, hsets⟩ := updatePartFile_ok hhead
  have hopened : SameAt name m m₁ := ⟨hfolder, by rw [hparts], hother name hne⟩
  have hrecorded : SameAt name m₁ m₂ := hm₂ ▸ SegmentRecorder.foldl_recordParsed_sameAt rfl hne m₁
  exact ⟨m₃, (hopened.trans hrecorded).trans (hsets.sameAt hne), hlast⟩

theorem next {g : DeltaGroup w} (hg : g.preceding = some s) {p : WalPartFile} (hp : m.partFile g.name = .ok p) :
    m'.partFiles.get g.name = some (p.withPreviousHead (headOf wal s)) ∧
      m'.deltaFileWriters.get g.name = m.deltaFileWriters.get g.name ∧ m'.dataFolder = m.dataFolder := by
  have hne : g.name ≠ (group s).name := fun heq => preceding_group_ne hg (DeltaGroup.name_injective heq).symm
  obtain ⟨m₁, hsame, hlast⟩ := h.before_close hne
  rw [if_pos (preceding_position hg), (nextDeltaFilename_eq_iff s (preceding_position hg) g).mpr hg] at hlast
  obtain ⟨p', hp', hsets⟩ := updatePartFile_ok hlast
  rw [partFile_congr hsame.dataFolder hsame.partFiles, hp] at hp'
  cases hp'
  exact ⟨hsets.get_self, by rw [hsets.deltaFileWriters, hsame.deltaFileWriters],
    hsets.dataFolder.trans hsame.dataFolder⟩

theorem other {g : DeltaGroup w} (hgroup : group s ≠ g) (hg : g.preceding ≠ some s) : SameAt g.name m m' := by
  have hne : g.name ≠ (group s).name := fun heq => hgroup (DeltaGroup.name_injective heq).symm
  obtain ⟨m₁, hsame, hlast⟩ := h.before_close hne
  split_ifs at hlast with hposition
  · obtain ⟨p, -, hsets⟩ := updatePartFile_ok hlast
    exact hsame.trans (hsets.sameAt fun heq => hg ((nextDeltaFilename_eq_iff s hposition g).mp heq.symm))
  · rw [hlast]
    exact hsame

theorem canceled : m'.canceledDeltaFiles = m.canceledDeltaFiles := by
  obtain ⟨m₁, outputs, m₂, -, -, -, hcanceled, hclose⟩ := h.outputs
  obtain ⟨m₃, hhead, hlast⟩ := saveNextWalHead_ok hclose
  obtain ⟨p, -, hsets⟩ := updatePartFile_ok hhead
  split_ifs at hlast
  · obtain ⟨p', -, hsets'⟩ := updatePartFile_ok hlast
    rw [hsets'.canceledDeltaFiles, hsets.canceledDeltaFiles, hcanceled]
  · rw [hlast, hsets.canceledDeltaFiles, hcanceled]

end RecordsSegment

theorem exists_readsToEnd (reader : WalDeltaRecordingReader) (m : DeltaFileManager) {pages : List Bytes}
    (hcontent : reader.walFileReader.content = pages.flatten) (hpages : ∀ page ∈ pages, page.length = walPageSize) :
    ∃ reader' m', WalDeltaRecordingReader.ReadsToEnd w reader m reader' m' := by
  have hlength : pages.flatten.length = pages.length * walPageSize := by
    rw [length_flatten, map_congr_left hpages, map_const', sum_replicate, smul_eq_mul]
  have hwhole : reader.partialPage = 0 := by
    rw [WalDeltaRecordingReader.partialPage, hcontent, hlength, Nat.mul_mod_left]
  obtain ⟨reader', m', hread, -⟩ := WalDeltaRecordingReader.readLoop_of_exhausted (w := w) (m := m)
    (show reader.pending.length < reader.pending.length + 1 + reader.partialPage by omega)
  rw [if_pos hwhole] at hread
  exact ⟨reader', m', .last hread⟩

/-- A segment can be recorded when the files of its group and the part file of the next group can be loaded. -/
theorem exists_recordsSegment {s : WalSegment w} {m : DeltaFileManager} {p : WalPartFile} {d : DeltaFile}
    (hp : m.partFile (group s).name = .ok p) (hd : m.deltaFile (group s).name = .ok d)
    (hnext : position s = lastPosition → ∃ p', m.partFile (nextDeltaFilename w s.filename) = .ok p') :
    ∃ m', RecordsSegment wal s m m' := by
  obtain ⟨outputs, parser, hparse, hhead, hyields, -⟩ := (wal s.timeline).parsePages_segment s.no
  obtain ⟨m₁, hopen⟩ := exists_getBlockLocationConsumer hd
  obtain ⟨d', -, -, -, hparts, hfolder, hcanceled⟩ := getBlockLocationConsumer_ok hopen
  have hp₁ : m₁.partFile (group s).name = .ok p := (partFile_congr hfolder (by rw [hparts])).trans hp
  obtain ⟨m₁', hsave, hp₁', hother, -, hfolder', hcanceled'⟩ := saveTail_of_view hp₁ (tailOf wal s)
  have happends := consume_appends m₁' (group s).name (innerLocations wal s)
  have hcontent : PieceReader.content ⟨[((wal s.timeline).segment s.no).pages.flatten], false⟩ =
      ((wal s.timeline).segment s.no).pages.flatten := flatten_singleton
  obtain ⟨reader', m₂, hread⟩ := exists_readsToEnd (w := w) ⟨⟨newWalParser, s.filename, true⟩, _, []⟩ m₁ hcontent
    ((wal s.timeline).page_length s.no)
  have hpages := hread.recordPages hcontent ((wal s.timeline).page_length s.no)
  rw [SegmentRecorder.recordPages_of_parsePages hparse, SegmentRecorder.foldl_recordParsed_yields hyields hsave,
    getDeltaFilenameFor_filename, Option.getD_some] at hpages
  obtain ⟨hrecorder, rfl⟩ := Prod.mk.inj hpages
  have hp₂ := (partFile_congr happends.dataFolder (by rw [happends.partFiles])).trans hp₁'
  obtain ⟨m', hclose⟩ := exists_saveNextWalHead hp₂ parser.currentRecordData fun hposition => by
    obtain ⟨p', hp'⟩ := hnext hposition
    have hne : nextDeltaFilename w s.filename ≠ (group s).name := fun heq =>
      preceding_group_ne ((nextDeltaFilename_eq_iff s hposition (group s)).mp heq) rfl
    refine ⟨p', Eq.trans (partFile_congr ?_ ?_) hp'⟩
    · rw [happends.dataFolder, hfolder', hfolder]
    · rw [happends.partFiles, hother _ hne, hparts]
  refine ⟨m', ⟨_, _, m₁, reader', _, hcontent, ?_, hread, ?_, ?_⟩⟩
  · rw [newWalDeltaRecordingReader, getDeltaFilenameFor_filename]
    dsimp only
    rw [hopen]
  · exact happends.canceledDeltaFiles.trans (hcanceled'.trans hcanceled)
  · rw [SegmentRecorder.close, ← hrecorder]
    exact hclose

end WalG.Delta
