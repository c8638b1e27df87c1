import WalG.Foundation.Hex

/-! # WAL segments and their file names

A segment is a timeline and a number; its file name is three groups of eight hexadecimal digits.
-/
namespace WalG.Wal
open Foundation List

/-- A segment size that is a power of two, of at most one XLog id. -/
structure WalSize where
  exponent : ℕ
  le : exponent ≤ 32
  deriving DecidableEq

def WalSize.walSegmentSize (w : WalSize) : ℕ := 2 ^ w.exponent

def WalSize.xLogSegmentsPerXLogID (w : WalSize) : ℕ := 0x100000000 / w.walSegmentSize

/-- Sixteen megabytes. -/
def WalSize.default : WalSize := ⟨24, by decide⟩

/-- Unsigned 64-bit subtraction of one. -/
def lsnPred (lsn : ℕ) : ℕ := (lsn + (2 ^ 64 - 1)) % 2 ^ 64

def newWalSegmentNo (w : WalSize) (lsn : ℕ) : ℕ := lsn / w.walSegmentSize

def formatWALFileName (w : WalSize) (timeline logSegNo : ℕ) : Text :=
  formatHex 8 timeline ++ formatHex 8 (logSegNo / w.xLogSegmentsPerXLogID) ++
    formatHex 8 (logSegNo % w.xLogSegmentsPerXLogID)

/-- The timeline and the number of a segment's file name. -/
def parseWALFilename (w : WalSize) (name : Text) : Option (ℕ × ℕ) := do
  if name.length ≠ 24 then none
  else
    let timelineID ← parseHex 32 (name.take 8)
    let logSegNoHi ← parseHex 32 ((name.drop 8).take 8)
    let logSegNoLo ← parseHex 32 ((name.drop 16).take 8)
    if w.xLogSegmentsPerXLogID ≤ logSegNoLo then none
    else some (timelineID, logSegNoHi * w.xLogSegmentsPerXLogID + logSegNoLo)

/-- A match of the pattern of 24 upper-case hexadecimal digits at the start. -/
def startsWithSegment (s : Text) : Bool := (s.take 24).length = 24 ∧ (s.take 24).all isUpperHex

/-- The leftmost match of the pattern. -/
def findTimelineAndLogSegNo : Text → Option Text
  | [] => none
  | c :: s =>
    if startsWithSegment (c :: s) then some ((c :: s).take 24) else findTimelineAndLogSegNo s

def tryFetchTimelineAndLogSegNo (w : WalSize) (objectName : Text) : Option (ℕ × ℕ) :=
  (findTimelineAndLogSegNo objectName).bind (parseWALFilename w)

theorem walSegmentSize_pos (w : WalSize) : 0 < w.walSegmentSize := Nat.two_pow_pos _

theorem walSegmentSize_mul_xLogSegmentsPerXLogID (w : WalSize) : w.walSegmentSize * w.xLogSegmentsPerXLogID = 2 ^ 32 :=
  Nat.mul_div_cancel' (pow_dvd_pow 2 w.le)

theorem xLogSegmentsPerXLogID_pos (w : WalSize) : 0 < w.xLogSegmentsPerXLogID := by
  apply Nat.pos_of_ne_zero
  intro h
  have hmul := walSegmentSize_mul_xLogSegmentsPerXLogID w
  rw [h, Nat.mul_zero] at hmul
  cases hmul

theorem newWalSegmentNo_div (w : WalSize) (lsn : ℕ) :
    newWalSegmentNo w lsn / w.xLogSegmentsPerXLogID = lsn / 2 ^ 32 := by
  rw [newWalSegmentNo, Nat.div_div_eq_div_mul, walSegmentSize_mul_xLogSegmentsPerXLogID]

theorem newWalSegmentNo_div_lt (w : WalSize) {lsn : ℕ} (h : lsn < 2 ^ 64) :
    newWalSegmentNo w lsn / w.xLogSegmentsPerXLogID < 2 ^ 32 :=
  newWalSegmentNo_div w lsn ▸ Nat.div_lt_of_lt_mul h

theorem xLogSegmentsPerXLogID_le (w : WalSize) : w.xLogSegmentsPerXLogID ≤ 2 ^ 32 :=
  Nat.div_le_self _ _

theorem parseWALFilename_parts {w : WalSize} {name : Text} {timeline no : ℕ}
    (h : parseWALFilename w name = some (timeline, no)) :
    name.length = 24 ∧ parseHex 32 (name.take 8) = some timeline ∧
      parseHex 32 ((name.drop 8).take 8) = some (no / w.xLogSegmentsPerXLogID) ∧
      parseHex 32 ((name.drop 16).take 8) = some (no % w.xLogSegmentsPerXLogID) := by
  rw [parseWALFilename] at h
  split_ifs at h with hlen
  obtain ⟨timelineID, htimeline, h⟩ := Option.bind_eq_some_iff.mp h
  obtain ⟨logSegNoHi, hhigh, h⟩ := Option.bind_eq_some_iff.mp h
  obtain ⟨logSegNoLo, hlow, h⟩ := Option.bind_eq_some_iff.mp h
  split_ifs at h with hle
  cases h
  rw [Nat.mul_comm, Nat.mul_add_div (xLogSegmentsPerXLogID_pos w), Nat.div_eq_of_lt (not_le.mp hle), Nat.add_zero,
    Nat.mul_add_mod, Nat.mod_eq_of_lt (not_le.mp hle)]
  exact ⟨not_not.mp hlen, htimeline, hhigh, hlow⟩

theorem parseWALFilename_eq_some {w : WalSize} {name : Text} {timeline no : ℕ}
    (h : parseWALFilename w name = some (timeline, no)) : timeline < 2 ^ 32 ∧ no / w.xLogSegmentsPerXLogID < 2 ^ 32 :=
  ⟨parseHex_lt (parseWALFilename_parts h).2.1, parseHex_lt (parseWALFilename_parts h).2.2.1⟩

/-- A segment whose name has its 24 digits. -/
structure WalSegment (w : WalSize) where
  timeline : ℕ
  no : ℕ
  timeline_lt : timeline < 2 ^ 32
  no_lt : no / w.xLogSegmentsPerXLogID < 2 ^ 32
  deriving DecidableEq

namespace WalSegment

variable {w : WalSize} (s : WalSegment w) (rest : Text) {start : Text} {c : Char}

def filename : Text := formatWALFileName w s.timeline s.no

/-- A segment with a number of 32 bits. -/
def ofLt (timeline no : ℕ) (ht : timeline < 2 ^ 32) (hn : no < 2 ^ 32) : WalSegment w :=
  ⟨timeline, no, ht, lt_of_le_of_lt (Nat.div_le_self _ _) hn⟩

def ofWords (timeline no : UInt32) : WalSegment w := .ofLt timeline.toNat no.toNat timeline.toNat_lt no.toNat_lt

theorem low_lt : s.no % w.xLogSegmentsPerXLogID < 2 ^ 32 :=
  lt_of_lt_of_le (Nat.mod_lt _ (xLogSegmentsPerXLogID_pos w)) (xLogSegmentsPerXLogID_le w)

theorem filename_eq : s.filename = hexFixed 8 s.timeline ++
    (hexFixed 8 (s.no / w.xLogSegmentsPerXLogID) ++ hexFixed 8 (s.no % w.xLogSegmentsPerXLogID)) := by
  rw [filename, formatWALFileName, formatHex_eq_hexFixed (by decide) s.timeline_lt,
    formatHex_eq_hexFixed (by decide) s.no_lt, formatHex_eq_hexFixed (by decide) s.low_lt, append_assoc]

@[simp] theorem filename_length : s.filename.length = 24 := by
  rw [filename_eq, length_append, length_append]
  simp only [hexFixed_length]

theorem isUpperHex_of_mem_filename (h : c ∈ s.filename) : isUpperHex c = true := by
  rw [filename_eq, mem_append, mem_append] at h
  rcases h with h | h | h <;> exact isUpperHex_of_mem_hexFixed h

theorem parseWALFilename_filename : parseWALFilename w s.filename = some (s.timeline, s.no) := by
  have hdigits : (8 : ℕ) > 0 := by decide
  have htimeline : parseHex 32 (s.filename.take 8) = some s.timeline := by
    rw [filename_eq, take_left' (hexFixed_length 8 _)]
    exact parseHex_hexFixed hdigits s.timeline_lt s.timeline_lt
  have hrest : s.filename.drop 8 = hexFixed 8 (s.no / w.xLogSegmentsPerXLogID) ++
      hexFixed 8 (s.no % w.xLogSegmentsPerXLogID) := by
    rw [filename_eq, drop_left' (hexFixed_length 8 _)]
  have hhigh : parseHex 32 ((s.filename.drop 8).take 8) = some (s.no / w.xLogSegmentsPerXLogID) := by
    rw [hrest, take_left' (hexFixed_length 8 _)]
    exact parseHex_hexFixed hdigits s.no_lt s.no_lt
  have hlow : parseHex 32 ((s.filename.drop 16).take 8) = some (s.no % w.xLogSegmentsPerXLogID) := by
    rw [show s.filename.drop 16 = (s.filename.drop 8).drop 8 by rw [drop_drop], hrest,
      drop_left' (hexFixed_length 8 _), take_of_length_le (hexFixed_length 8 _).le]
    exact parseHex_hexFixed hdigits s.low_lt s.low_lt
  have hmod : ¬ w.xLogSegmentsPerXLogID ≤ s.no % w.xLogSegmentsPerXLogID :=
    Nat.not_le.mpr (Nat.mod_lt _ (xLogSegmentsPerXLogID_pos w))
  simp only [parseWALFilename, filename_length, htimeline, hhigh, hlow, ne_eq, not_true_eq_false,
    if_false, Option.bind_eq_bind, Option.bind_some, if_neg hmod, Nat.div_add_mod']

theorem filename_injective : Function.Injective (fun s : WalSegment w => s.filename) := by
  intro s t (h : s.filename = t.filename)
  have hparse := s.parseWALFilename_filename
  rw [h, t.parseWALFilename_filename, Option.some.injEq, Prod.mk.injEq] at hparse
  cases s
  cases t
  simp_all

theorem formatWALFileName_of_parse {name : Text} {timeline no : ℕ}
    (h : parseWALFilename w name = some (timeline, no)) : formatWALFileName w timeline no = name.map Char.toUpper := by
  obtain ⟨hlen, htimeline, hhigh, hlow⟩ := parseWALFilename_parts h
  have hsplit : name = name.take 8 ++ ((name.drop 8).take 8 ++ (name.drop 16).take 8) := by
    have hlast : (name.drop 16).take 8 = (name.drop 8).drop 8 := by
      rw [drop_drop, take_of_length_le (by simp [hlen])]
    rw [hlast, take_append_drop, take_append_drop]
  have h₁ := hexFixed_of_parseHex htimeline
  have h₂ := hexFixed_of_parseHex hhigh
  have h₃ := hexFixed_of_parseHex hlow
  simp only [length_take, length_drop, hlen] at h₁ h₂ h₃
  rw [formatWALFileName, formatHex_eq_hexFixed (by decide) (parseHex_lt htimeline),
    formatHex_eq_hexFixed (by decide) (parseHex_lt hhigh), formatHex_eq_hexFixed (by decide) (parseHex_lt hlow)]
  conv_rhs => rw [hsplit, map_append, map_append, ← h₁, ← h₂, ← h₃]
  exact append_assoc _ _ _

/-- Along a timeline the names of the segments come in the order of their numbers. -/
theorem textLess_filename_iff {s t : WalSegment w} (htimeline : s.timeline = t.timeline) :
    textLess s.filename t.filename = true ↔ s.no < t.no := by
  have hs := Nat.div_add_mod s.no w.xLogSegmentsPerXLogID
  have ht := Nat.div_add_mod t.no w.xLogSegmentsPerXLogID
  rw [filename_eq, filename_eq, htimeline, textLess_append_iff (by simp), textLess_append_iff (by simp),
    textLess_hexFixed t.timeline_lt t.timeline_lt, textLess_hexFixed s.no_lt t.no_lt,
    textLess_hexFixed s.low_lt t.low_lt]
  constructor
  · rintro (hlt | ⟨-, hlt | ⟨heq, hlt⟩⟩)
    · exact absurd hlt (lt_irrefl _)
    · exact Nat.lt_of_div_lt_div hlt
    · rw [hexFixed_injective s.no_lt t.no_lt heq] at hs
      omega
  · intro hlt
    rcases (Nat.div_le_div_right (c := w.xLogSegmentsPerXLogID) hlt.le).lt_or_eq with hdiv | hdiv
    · exact .inr ⟨rfl, .inl hdiv⟩
    · rw [hdiv] at hs
      exact .inr ⟨rfl, .inr ⟨by rw [hdiv], by omega⟩⟩

theorem not_textLess_filename {s t : WalSegment w} (htimeline : s.timeline = t.timeline) (hle : s.no ≤ t.no)
    (rest : Text) : textLess (t.filename ++ rest) s.filename = false := by
  rw [← append_nil s.filename, ← Bool.not_eq_true, textLess_append_iff (by simp), textLess_filename_iff htimeline.symm]
  rintro (hlt | ⟨-, hlt⟩)
  · omega
  · cases rest <;> cases hlt

theorem startsWithSegment_filename : startsWithSegment (s.filename ++ rest) = true := by
  rw [startsWithSegment, take_left' s.filename_length, decide_eq_true_eq]
  exact ⟨s.filename_length, all_eq_true.mpr fun d hd => s.isUpperHex_of_mem_filename hd⟩

theorem not_startsWithSegment (hc : isUpperHex c = false)
    (hlen : start.length < 24) (t : Text) : startsWithSegment (start ++ c :: t) = false := by
  have hmem : c ∈ (start ++ c :: t).take 24 := by
    obtain ⟨k, hk⟩ : ∃ k, 24 - start.length = k + 1 := ⟨23 - start.length, by omega⟩
    rw [take_append, mem_append, hk, take_succ_cons]
    exact .inr mem_cons_self
  rw [startsWithSegment, decide_eq_false_iff_not]
  rintro ⟨-, hall⟩
  rw [all_eq_true.mp hall c hmem] at hc
  cases hc

/-- A segment's name is found behind up to 24 characters that end in no digit. -/
theorem findTimelineAndLogSegNo_append (hc : isUpperHex c = false) (hlen : start.length < 24) (t : Text) :
    findTimelineAndLogSegNo (start ++ c :: t) = findTimelineAndLogSegNo t := by
  induction start with
  | nil =>
    have hno := not_startsWithSegment hc (by decide : ([] : Text).length < 24) t
    rw [nil_append] at hno ⊢
    rw [findTimelineAndLogSegNo, hno, if_neg Bool.false_ne_true]
  | cons d start ih =>
    have hno := not_startsWithSegment hc hlen t
    rw [cons_append] at hno ⊢
    rw [findTimelineAndLogSegNo, hno, if_neg Bool.false_ne_true]
    exact ih (by rw [length_cons] at hlen; omega)

theorem findTimelineAndLogSegNo_filename : findTimelineAndLogSegNo (s.filename ++ rest) = some s.filename := by
  have hstart := s.startsWithSegment_filename rest
  have htake := (take_left' s.filename_length : (s.filename ++ rest).take 24 = s.filename)
  obtain ⟨c, t, hct⟩ := exists_cons_of_ne_nil
    (ne_nil_of_length_pos (by rw [filename_length]; decide) : s.filename ≠ [])
  rw [hct, cons_append] at hstart htake ⊢
  rw [findTimelineAndLogSegNo, hstart, if_pos rfl, htake]

/-- An object is assigned to the first segment named in it. -/
theorem tryFetch_append (hc : isUpperHex c = false) (hlen : start.length < 24) (rest : Text) :
    tryFetchTimelineAndLogSegNo w (start ++ c :: (s.filename ++ rest)) = some (s.timeline, s.no) := by
  rw [tryFetchTimelineAndLogSegNo, findTimelineAndLogSegNo_append hc hlen,
    findTimelineAndLogSegNo_filename, Option.bind_some, parseWALFilename_filename]

end WalSegment

end WalG.Wal
